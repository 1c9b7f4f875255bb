import Bsdi.Telnet.Receive
import Mathlib.Data.List.Basic

/-!
# Where the read buffers end

`telrcv` keeps its state from one buffer to the next, but it also looks at the byte behind a
carriage return, if that is in the same buffer. In line mode this is the only thing that depends on
where the buffers end, and it always shows.
-/

namespace Bsdi.Telnet

variable {E : Type} (sv : Server E) {s t s' t' u u' : Rcv E} {c : UInt8} {nc : Option UInt8}
variable {buf rest : List UInt8} {bufs : List (List UInt8)}

/-- The same but for the pty buffer and the record of what was put into it. -/
structure Alike (s t : Rcv E) : Prop where
  state : s.state = t.state
  sub : s.sub = t.sub
  env : s.env = t.env
  subs : s.subs = t.subs

/-- Two receivers that are alike are still alike and have put the same characters into the pty
buffer. -/
structure InStep (s t s' t' : Rcv E) : Prop where
  alike : Alike s' t'
  placed : ∃ p, s'.pty = s.pty ++ p ∧ t'.pty = t.pty ++ p

/-- Alike, with the same characters for the pty. -/
structure Same (s t : Rcv E) : Prop where
  alike : Alike s t
  pty : s.pty = t.pty

theorem Alike.refl (s : Rcv E) : Alike s s := ⟨rfl, rfl, rfl, rfl⟩

theorem Alike.trans (h : Alike s t) (h' : Alike t u) : Alike s u :=
  ⟨h.state.trans h'.state, h.sub.trans h'.sub, h.env.trans h'.env, h.subs.trans h'.subs⟩

theorem Same.refl (s : Rcv E) : Same s s := ⟨.refl s, rfl⟩

theorem Same.trans (h : Same s t) (h' : Same t u) : Same s u :=
  ⟨h.alike.trans h'.alike, h.pty.trans h'.pty⟩

theorem InStep.start (h : Alike s t) : InStep s t s t := ⟨h, [], by simp, by simp⟩

theorem InStep.same (h : InStep s t s' t') (hpty : s.pty = t.pty) : Same s' t' := by
  obtain ⟨p, hs, ht⟩ := h.placed
  exact ⟨h.alike, by rw [hs, ht, hpty]⟩

theorem InStep.to (h : InStep s t s' t') (ts : Ts) :
    InStep s t { s' with state := ts } { t' with state := ts } :=
  ⟨⟨rfl, h.alike.sub, h.alike.env, h.alike.subs⟩, h.placed⟩

theorem InStep.place (h : InStep s t s' t') : InStep s t (s'.place c) (t'.place c) := by
  obtain ⟨p, hs, ht⟩ := h.placed
  exact ⟨⟨h.alike.state, h.alike.sub, h.alike.env, h.alike.subs⟩, p ++ [c], by simp [Rcv.place, hs],
    by simp [Rcv.place, ht]⟩

theorem InStep.after (h : InStep s t s' t') (a : Answer E) :
    InStep s t (s'.after a) (t'.after a) := by
  have hflush : InStep s t
      { s' with env := a.env, pfront := if a.flushed s'.pfront then 0 else s'.pfront }
      { t' with env := a.env, pfront := if a.flushed t'.pfront then 0 else t'.pfront } :=
    ⟨⟨h.alike.state, h.alike.sub, rfl, h.alike.subs⟩, h.placed⟩
  unfold Rcv.after
  cases a.placed with
  | none => exact hflush
  | some c => exact hflush.place

theorem InStep.sbTerm (h : InStep s t s' t') : InStep s t (sbTerm sv c s') (sbTerm sv c t') := by
  refine ⟨⟨h.alike.state, rfl, ?_, ?_⟩, h.placed⟩
  · simp only [Telnet.sbTerm, h.alike.sub, h.alike.env]
  · simp only [Telnet.sbTerm, h.alike.sub, h.alike.subs]

theorem InStep.ite {p : Prop} [Decidable p] {a a' b b' : Rcv E} (ha : InStep s t a a')
    (hb : InStep s t b b') : InStep s t (if p then a else b) (if p then a' else b') := by
  split
  · exact ha
  · exact hb

theorem InStep.command (h : InStep s t s' t') : InStep s t (command sv c s') (command sv c t') := by
  have hmark : InStep s t { s' with env := sv.gotMark t'.env } { t' with env := sv.gotMark t'.env }
    :=
    ⟨⟨h.alike.state, h.alike.sub, rfl, h.alike.subs⟩, h.placed⟩
  rw [Telnet.command, Telnet.command, h.alike.env]
  exact .ite (h.after _) (.ite (h.after _) (.ite (h.after _) (.ite (h.after _) (.ite (h.after _)
    (.ite (h.after _) (.ite hmark (.ite (.ite (h.after _) h) (.ite (h.after _) (.ite (h.after _)
    (.ite (h.after _) (.ite h.place h)))))))))))

theorem InStep.gotiac (h : InStep s t s' t') : InStep s t (gotiac sv c s') (gotiac sv c t') := by
  unfold Telnet.gotiac
  split_ifs
  · exact ⟨⟨rfl, rfl, h.alike.env, h.alike.subs⟩, h.placed⟩
  all_goals first
    | exact h.to _
    | exact (h.command sv).to _

theorem InStep.data (h : InStep s t s' t') :
    InStep s t (data sv c nc s').1 (data sv c nc t').1 ∧
      (data sv c nc s').2 = (data sv c nc t').2 := by
  have hbinary : sv.wontBinary s'.env = sv.wontBinary t'.env := by rw [h.alike.env]
  have hends : endsLine sv s'.env nc = endsLine sv t'.env nc := by rw [h.alike.env]
  unfold Telnet.data
  rw [hbinary, hends]
  split_ifs
  · exact ⟨h.to _, rfl⟩
  · exact ⟨h.place, rfl⟩
  · exact ⟨h.place.to _, rfl⟩
  · exact ⟨h.place, rfl⟩

theorem InStep.turn (h : InStep s t s' t') (c : UInt8) (nc : Option UInt8) :
    InStep s t (turn sv c nc s').1 (turn sv c nc t').1 ∧
      (turn sv c nc s').2 = (turn sv c nc t').2 := by
  have hstate := h.alike.state
  unfold Telnet.turn
  rw [hstate]
  cases t'.state with
  | cr =>
    dsimp only
    split_ifs
    · exact ⟨h.to _, rfl⟩
    · exact (h.to _).data sv
  | data => exact h.data sv
  | iac => exact ⟨h.gotiac sv, rfl⟩
  | sb =>
    dsimp only
    refine ⟨?_, rfl⟩
    split_ifs
    · exact h.to _
    · exact ⟨⟨rfl, congrArg (sbAccum c) h.alike.sub, h.alike.env, h.alike.subs⟩, h.placed⟩
  | se =>
    dsimp only
    split_ifs
    · exact ⟨(h.sbTerm sv).to _, rfl⟩
    · exact ⟨⟨⟨rfl, congrArg (sbAccum c) h.alike.sub, h.alike.env, h.alike.subs⟩, h.placed⟩, rfl⟩
    · exact ⟨((h.sbTerm sv).to _).gotiac sv, rfl⟩
  | option cmd => exact ⟨⟨⟨rfl, h.alike.sub, by rw [h.alike.env], h.alike.subs⟩, h.placed⟩, rfl⟩

theorem turn_alone (h : (turn sv c nc s).2 = false) :
    (turn sv c nc s).1 = (turn sv c none s).1 := by
  have hdata : ∀ {s : Rcv E}, (data sv c nc s).2 = false →
      (data sv c nc s).1 = (data sv c none s).1 := by
    intro s h
    unfold data at h ⊢
    split_ifs at h ⊢ <;> simp_all [endsLine]
  unfold turn at h ⊢
  cases hs : s.state with
  | cr =>
    simp only [hs] at h ⊢
    split_ifs at h ⊢ with hstrip
    · rfl
    · exact hdata h
  | data =>
    simp only [hs] at h ⊢
    exact hdata h
  | _ => rfl

def feed (s : Rcv E) : List UInt8 → Rcv E
  | [] => s
  | [c] => (turn sv c none s).1
  | c :: nc :: rest =>
    let r := turn sv c (some nc) s
    if r.2 then feed r.1 rest else feed r.1 (nc :: rest)

theorem Same.turn (h : Same s t) : Same (turn sv c nc s).1 (turn sv c nc t).1 :=
  ((InStep.start h.alike).turn sv c nc).1.same h.pty

theorem Same.turn_snd (h : Same s t) : (Telnet.turn sv c nc s).2 = (Telnet.turn sv c nc t).2 :=
  ((InStep.start h.alike).turn sv c nc).2

theorem Same.feed {s t : Rcv E} (h : Same s t) : ∀ buf, Same (feed sv s buf) (feed sv t buf)
  | [] => by simpa [Telnet.feed] using h
  | [c] => by simpa [Telnet.feed] using h.turn sv
  | c :: nc :: rest => by
    rw [Telnet.feed, Telnet.feed, h.turn_snd sv]
    split
    · exact (h.turn sv).feed rest
    · exact (h.turn sv).feed (nc :: rest)

theorem telrcv_spec (s : Rcv E) (buf : List UInt8) :
    feed sv (telrcv sv s buf).1 (telrcv sv s buf).2 = feed sv s buf ∧
      (telrcv sv s buf).2.length ≤ buf.length := by
  induction s, buf using telrcv.induct sv with
  | case1 s => simp [telrcv]
  | case2 s c hfull => simp [telrcv, hfull]
  | case3 s c hroom => simp [telrcv, hroom, feed]
  | case4 s c nc rest hfull => simp [telrcv, hfull]
  | case5 s c nc rest hroom r hr ih =>
    rw [telrcv, if_neg hroom, if_pos hr, feed, if_pos hr]
    exact ⟨ih.1, Nat.le_trans ih.2 (by simp; omega)⟩
  | case6 s c nc rest hroom r hr ih =>
    rw [telrcv, if_neg hroom, if_neg hr, feed, if_neg hr]
    exact ⟨ih.1, Nat.le_trans ih.2 (by simp)⟩

theorem telrcv_progress (hbuf : buf ≠ []) (hroom : s.pfront = 0) :
    (telrcv sv s buf).2.length < buf.length := by
  have hroom : ¬ bufsiz < s.pfront + 2 := by
    rw [hroom]
    decide
  match buf, hbuf with
  | [c], _ => simp [telrcv, hroom]
  | c :: nc :: rest, _ =>
    rw [telrcv, if_neg hroom]
    dsimp only
    split_ifs
    · have := (telrcv_spec sv (turn sv c (some nc) s).1 rest).2
      simp only [List.length_cons]
      omega
    · have := (telrcv_spec sv (turn sv c (some nc) s).1 (nc :: rest)).2
      simp only [List.length_cons] at this ⊢
      omega

theorem calls_spec {fuel : Nat} (hfuel : buf.length < fuel) :
    Same (calls sv fuel s buf).1 (feed sv s buf) ∧ (calls sv fuel s buf).2 = [] := by
  induction fuel generalizing s buf with
  | zero => omega
  | succ fuel ih =>
    have hdrained : Same { s with pfront := 0 } s := ⟨⟨rfl, rfl, rfl, rfl⟩, rfl⟩
    have hcall := telrcv_spec sv { s with pfront := 0 } buf
    have hfeed := hdrained.feed sv buf
    rw [calls]
    split_ifs with hdone
    · rw [hdone] at hcall
      exact ⟨by simpa [← hcall.1, feed] using hfeed, hdone⟩
    · have hbuf : buf ≠ [] := by
        rintro rfl
        simp [telrcv] at hdone
      have hless := telrcv_progress sv (s := { s with pfront := 0 }) hbuf rfl
      obtain ⟨hsame, hnil⟩ := @ih (telrcv sv { s with pfront := 0 } buf).1
        (telrcv sv { s with pfront := 0 } buf).2 (by omega)
      exact ⟨hsame.trans (hcall.1 ▸ hfeed), hnil⟩

theorem received_spec (s : Rcv E) (buf : List UInt8) :
    Same (received sv s buf) (feed sv s buf) :=
  (calls_spec sv (Nat.lt_succ_self _)).1

def cuts : List (List UInt8) → List Nat
  | [] => []
  | buf :: bufs => (if buf = [] then [] else [buf.length - 1]) ++ (cuts bufs).map (· + buf.length)

/-- `c` is a carriage return that is taken for an end of line with `nc` behind it. -/
def takesEol (c nc : UInt8) (s : Rcv E) : Bool :=
  (s.state = .data || s.state = .cr) && c = 13 && sv.wontBinary s.env && endsLine sv s.env (some nc)

theorem turn_takes {nc : UInt8} : (turn sv c (some nc) s).2 = takesEol sv c nc s := by
  have hdata : ∀ {s : Rcv E}, (data sv c (some nc) s).2 =
      (decide (c = 13) && sv.wontBinary s.env && endsLine sv s.env (some nc)) := by
    intro s
    unfold data
    split_ifs with h1 h2 h3
    · subst h1
      simp [IAC]
    · simp [h2, h3]
    · simp [h3]
    · simp only [Bool.false_eq, Bool.and_eq_false_imp]
      intro h
      exact absurd (by simpa using h) h2
  unfold turn takesEol
  cases hs : s.state with
  | cr =>
    dsimp only
    split_ifs with hstrip
    · rcases hstrip with rfl | rfl <;> simp
    · simp [hdata]
  | data => simp [hdata]
  | se =>
    dsimp only
    split_ifs <;> simp
  | _ => simp

/-- The positions of the carriage returns that are taken for an end of line together with the byte
behind them, when all the bytes are in one buffer. -/
def eols (s : Rcv E) : List UInt8 → List Nat
  | [] => []
  | [_] => []
  | c :: nc :: rest =>
    let s' := (turn sv c (some nc) s).1
    if takesEol sv c nc s then 0 :: (eols s' rest).map (· + 2)
    else (eols s' (nc :: rest)).map (· + 1)

def walk (cut : Nat → Bool) (s : Rcv E) : List UInt8 → Rcv E
  | [] => s
  | [c] => (turn sv c none s).1
  | c :: nc :: rest =>
    let r := turn sv c (some nc) s
    if r.2 && !cut 0 then walk (fun i => cut (i + 2)) r.1 rest
    else walk (fun i => cut (i + 1)) (turn sv c none s).1 (nc :: rest)

theorem Same.walk {s t : Rcv E} (cut : Nat → Bool) (h : Same s t) :
    ∀ stream, Same (walk sv cut s stream) (walk sv cut t stream)
  | [] => by simpa [Telnet.walk] using h
  | [c] => by simpa [Telnet.walk] using h.turn sv
  | c :: nc :: rest => by
    rw [Telnet.walk, Telnet.walk, h.turn_snd sv]
    split
    · exact (h.turn sv).walk _ rest
    · exact (h.turn sv).walk _ (nc :: rest)

theorem walk_append (cut : Nat → Bool) : ∀ (s : Rcv E) (buf stream : List UInt8),
    buf ≠ [] → cut (buf.length - 1) = true → (∀ i, i + 1 < buf.length → cut i = false) →
      walk sv cut s (buf ++ stream) = walk sv (fun i => cut (i + buf.length)) (feed sv s buf) stream
  | s, [], _, hbuf, _, _ => absurd rfl hbuf
  | s, [c], [], _, _, _ => by simp [walk, feed]
  | s, [c], nc :: rest, _, hcut, _ => by
    have hcut : cut 0 = true := hcut
    simp [walk, feed, hcut]
  | s, [c, nc], stream, _, hcut, hno => by
    have h0 : cut 0 = false := hno 0 (by simp)
    cases hr : (turn sv c (some nc) s).2 with
    | true => simp [walk, feed, h0, hr]
    | false =>
      have := walk_append (fun i => cut (i + 1)) (turn sv c none s).1 [nc] stream
        (by simp) hcut (by simp)
      simpa [walk, feed, h0, hr, turn_alone sv hr, Nat.add_assoc] using this
  | s, c :: nc :: d :: rest, stream, _, hcut, hno => by
    have h0 : cut 0 = false := hno 0 (by simp)
    cases hr : (turn sv c (some nc) s).2 with
    | true =>
      have := walk_append (fun i => cut (i + 2)) (turn sv c (some nc) s).1
        (d :: rest) stream (by simp) (by simpa using hcut)
        (fun i hi => hno (i + 2) (by simp at hi ⊢; omega))
      simpa [walk, feed, h0, hr, Nat.add_assoc] using this
    | false =>
      have := walk_append (fun i => cut (i + 1)) (turn sv c none s).1
        (nc :: d :: rest) stream (by simp) (by simpa using hcut)
        (fun i hi => hno (i + 1) (by simp at hi ⊢; omega))
      simpa [walk, feed, h0, hr, turn_alone sv hr, Nat.add_assoc] using this

theorem receiveAll_spec (s : Rcv E) (bufs : List (List UInt8)) :
    Same (receiveAll sv s bufs) (walk sv (fun i => decide (i ∈ cuts bufs)) s bufs.flatten) := by
  induction bufs generalizing s with
  | nil => exact .refl s
  | cons buf bufs ih =>
    have hrest := (ih (received sv s buf)).trans
      ((received_spec sv s buf).walk sv (fun i => decide (i ∈ cuts bufs)) bufs.flatten)
    by_cases hbuf : buf = []
    · subst hbuf
      simpa [receiveAll, cuts, feed] using hrest
    · have hpos : 0 < buf.length := List.length_pos_iff.mpr hbuf
      have hwalk := walk_append sv (fun i => decide (i ∈ cuts (buf :: bufs))) s buf
        bufs.flatten hbuf (by simp [cuts, hbuf]) (fun i hi => by
          have : i ≠ buf.length - 1 := by omega
          have : ∀ j, j + buf.length ≠ i := fun j => by omega
          simp [cuts, *])
      have hcuts : (fun i => decide (i + buf.length ∈ cuts (buf :: bufs))) =
          fun i => decide (i ∈ cuts bufs) := by
        funext i
        have : i + buf.length ≠ buf.length - 1 := by omega
        simp [cuts, hbuf, this]
      rw [List.flatten_cons, hwalk, hcuts]
      exact hrest

def Diverged (s t : Rcv E) : Prop :=
  ∃ p x y q r, x ≠ y ∧ s.pty = p ++ x :: q ∧ t.pty = p ++ y :: r

/-- Alike, with the same characters for the pty where `same` holds, and others where it does not. -/
structure Compared (same : Prop) (s t : Rcv E) : Prop where
  alike : Alike s t
  pty : same → s.pty = t.pty
  diverged : ¬ same → Diverged s t

theorem InStep.compared {same : Prop} (h : InStep s t s' t') (hc : Compared same s t) :
    Compared same s' t' := by
  obtain ⟨w, hs, ht⟩ := h.placed
  refine ⟨h.alike, fun hsame => by rw [hs, ht, hc.pty hsame], fun hsame => ?_⟩
  obtain ⟨p, x, y, q, r, hne, hs', ht'⟩ := hc.diverged hsame
  exact ⟨p, x, y, q ++ w, r ++ w, hne, by simp [hs, hs'], by simp [ht, ht']⟩

theorem Alike.eols {s t : Rcv E} (h : Alike s t) : ∀ stream, eols sv s stream = eols sv t stream
  | [] => rfl
  | [_] => rfl
  | c :: nc :: rest => by
    have hturn := (InStep.start h).turn sv c (some nc)
    rw [Telnet.eols, Telnet.eols, ← turn_takes, ← turn_takes, hturn.2, hturn.1.alike.eols rest,
      hturn.1.alike.eols (nc :: rest)]

theorem turn_pair {nc : UInt8} (h : (turn sv c (some nc) s).2 = true) :
    (turn sv c (some nc) s).1 = { s.place 10 with state := .data } ∧
      ∀ next, turn sv nc next (turn sv c none s).1 = ({ s.place 13 with state := .data }, false) :=
        by
  have hdata : ∀ {s : Rcv E}, s.state = .data → (data sv c (some nc) s).2 = true →
      (data sv c (some nc) s).1 = { s.place 10 with state := .data } ∧
        ∀ next, turn sv nc next (data sv c none s).1 =
          ({ s.place 13 with state := .data }, false) := by
    intro s hs h
    unfold data at h ⊢
    split_ifs at h ⊢ with h1 h2 h3 h4
    · simp [endsLine] at h4
    · have hnc : nc = 0 ∨ nc = 10 := by
        simp only [endsLine, Bool.and_eq_true, Bool.or_eq_true, decide_eq_true_eq,
          Option.some.injEq] at h3
        tauto
      refine ⟨by simp [Rcv.place, hs], fun next => ?_⟩
      simp [turn, hnc, Rcv.place, h2.1]
  unfold turn at h
  cases hs : s.state with
  | cr =>
    simp only [hs] at h
    split_ifs at h with hstrip
    have hturn : ∀ nc, turn sv c nc s = data sv c nc { s with state := .data } := by
      intro nc
      simp [turn, hs, hstrip]
    rw [hturn, hturn]
    exact hdata rfl h
  | data =>
    simp only [hs] at h
    have hturn : ∀ nc, turn sv c nc s = data sv c nc s := by
      intro nc
      simp [turn, hs]
    rw [hturn, hturn]
    exact hdata hs h
  | se =>
    simp only [hs] at h
    split_ifs at h
  | _ => simp [hs] at h

theorem walk_pair {nc : UInt8} (cut : Nat → Bool) (rest : List UInt8)
    (h : (turn sv c (some nc) s).2 = true) :
    walk sv cut (turn sv c none s).1 (nc :: rest) =
      walk sv (fun i => cut (i + 1)) { s.place 13 with state := .data } rest := by
  have hpair := (turn_pair sv h).2
  cases rest with
  | nil => simp [walk, hpair]
  | cons d rest => simp [walk, hpair]

theorem Compared.pair {same : Prop} (h : Compared same s t) (x y : UInt8) :
    Compared (same ∧ x = y) { s.place x with state := .data } { t.place y with state := .data } :=
      by
  refine ⟨⟨rfl, h.alike.sub, h.alike.env, h.alike.subs⟩, ?_, fun hno => ?_⟩
  · rintro ⟨hsame, rfl⟩
    simp [Rcv.place, h.pty hsame]
  · by_cases hsame : same
    · have hxy : x ≠ y := fun hxy => hno ⟨hsame, hxy⟩
      exact ⟨t.pty, x, y, [], [], hxy, by simp [Rcv.place, h.pty hsame], by simp [Rcv.place]⟩
    · obtain ⟨p, a, b, q, r, hne, hs, ht⟩ := h.diverged hsame
      exact ⟨p, a, b, q ++ [x], r ++ [y], hne, by simp [Rcv.place, hs], by simp [Rcv.place, ht]⟩

theorem walk_taken {cut : Nat → Bool} {nc : UInt8} (h : (turn sv c (some nc) s).2 = true) :
    walk sv cut s (c :: nc :: rest) =
      walk sv (fun i => cut (i + 2))
        { s.place (if cut 0 then 13 else 10) with state := .data } rest := by
  cases hcut : cut 0 with
  | false => simp [walk, h, hcut, (turn_pair sv h).1]
  | true =>
    rw [walk, hcut]
    simp [walk_pair sv _ rest h, Nat.add_assoc]

theorem walk_passed {cut : Nat → Bool} {nc : UInt8} (h : (turn sv c (some nc) s).2 = false) :
    walk sv cut s (c :: nc :: rest) =
      walk sv (fun i => cut (i + 1)) (turn sv c (some nc) s).1 (nc :: rest) := by
  rw [walk, h, turn_alone sv h]
  simp

theorem walk_compared {same : Prop} (cut cut' : Nat → Bool) :
    ∀ {s t : Rcv E} (stream : List UInt8), Compared same s t →
      Compared (same ∧ ∀ i ∈ eols sv s stream, cut i = cut' i) (walk sv cut s stream)
        (walk sv cut' t stream)
  | s, t, [], h => by simpa [eols, walk] using h
  | s, t, [c], h => by
    simpa [eols, walk] using ((InStep.start h.alike).turn sv c none).1.compared h
  | s, t, c :: nc :: rest, h => by
    have hturn := (InStep.start h.alike).turn sv c (some nc)
    cases hr : (turn sv c (some nc) s).2 with
    | true =>
      -- the two walks meet again behind the pair
      have hr' : (turn sv c (some nc) t).2 = true := by rw [← hturn.2, hr]
      have hpair := h.pair (if cut 0 then 13 else 10) (if cut' 0 then 13 else 10)
      have hrest := walk_compared (fun i => cut (i + 2)) (fun i => cut' (i + 2)) rest hpair
      have halike : Alike { s.place (if cut 0 then 13 else 10) with state := .data }
          (turn sv c (some nc) s).1 := by
        rw [(turn_pair sv hr).1]
        exact ⟨rfl, rfl, rfl, rfl⟩
      have hsame : ((if cut 0 then 13 else 10 : UInt8) = if cut' 0 then 13 else 10) ↔
          cut 0 = cut' 0 := by
        cases cut 0 <;> cases cut' 0 <;> simp
      rw [walk_taken sv hr, walk_taken sv hr']
      rw [halike.eols sv rest, hsame, and_assoc] at hrest
      simpa [eols, ← turn_takes, hr] using hrest
    | false =>
      have hr' : (turn sv c (some nc) t).2 = false := by rw [← hturn.2, hr]
      have hrest := walk_compared (fun i => cut (i + 1)) (fun i => cut' (i + 1)) (nc :: rest)
        (hturn.1.compared h)
      rw [walk_passed sv hr, walk_passed sv hr']
      simpa [eols, ← turn_takes, hr] using hrest

/-- **The characters for the pty and the suboptions do not depend on where the read buffers end
exactly when the same ends of lines are cut.** -/
theorem receiveAll_eq_iff (s : Rcv E) {bufs bufs' : List (List UInt8)}
    (hstream : bufs.flatten = bufs'.flatten) :
    (receiveAll sv s bufs).pty = (receiveAll sv s bufs').pty ∧
        (receiveAll sv s bufs).subs = (receiveAll sv s bufs').subs ↔
      ∀ i ∈ eols sv s bufs.flatten, (i ∈ cuts bufs ↔ i ∈ cuts bufs') := by
  have h := receiveAll_spec sv s bufs
  have h' := receiveAll_spec sv s bufs'
  have hstart : Compared True s s := ⟨.refl s, fun _ => rfl, fun h => absurd trivial h⟩
  have hc := walk_compared sv (fun i => decide (i ∈ cuts bufs)) (fun i => decide (i ∈ cuts bufs'))
    bufs.flatten hstart
  simp only [true_and, decide_eq_decide] at hc
  rw [← hstream] at h'
  rw [h.pty, h'.pty, h.alike.subs, h'.alike.subs]
  constructor
  · rintro ⟨hpty, -⟩
    by_contra hno
    obtain ⟨p, x, y, q, r, hne, hs, ht⟩ := hc.diverged hno
    rw [hs, ht, List.append_right_inj, List.cons.injEq] at hpty
    exact hne hpty.1
  · exact fun hall => ⟨hc.pty hall, hc.alike.subs⟩

def lineServer : Server Unit :=
  let nothing : Unit → Answer Unit := fun _ => ⟨(), fun _ => true, none⟩
  ⟨fun _ => true, fun _ => true, fun _ => false, fun _ => false, nothing, nothing, nothing, nothing,
    nothing, id, fun _ _ => true, id, fun _ => none, fun _ => none, fun _ => none, id, id,
    fun _ => id, fun _ _ => id⟩

def Rcv.start : Rcv Unit := ⟨.data, [], (), 0, [], []⟩

/-- "a\r\nb" cut behind the first and before the last character. -/
theorem receiveAll_eq_uncut :
    (receiveAll lineServer .start [[97], [13, 10], [98]]).pty =
        (receiveAll lineServer .start [[97, 13, 10, 98]]).pty ∧
      (receiveAll lineServer .start [[97], [13, 10], [98]]).subs =
        (receiveAll lineServer .start [[97, 13, 10, 98]]).subs :=
  (receiveAll_eq_iff lineServer .start rfl).mpr (by decide)

/-- A carriage return at the end of a read buffer, with its line feed in the next one. -/
theorem receiveAll_cut_eol :
    (receiveAll lineServer .start [[13, 10]]).pty = [10] ∧
      (receiveAll lineServer .start [[13], [10]]).pty = [13] := by
  decide

end Bsdi.Telnet
