import Bsdi.Telnet.Options

/-!
# The two sides agree

Where both sides accept the option, the messages on the way to a side alternate from the state it
has to the state the other wants, and each of them is one of the requests that are counted.
-/

namespace Bsdi.Telnet

theorem char_eq {n : Int} (hlo : -128 ≤ n) (hhi : n < 128) : char n = n := by
  unfold char
  rw [Int.bmod_eq_of_le] <;> omega

section answered

variable {h : Half} {new : Bool} {j : Nat}

theorem answered_one (hr : h.resp = 1) : answered new h = { h with resp := 0 } := by
  simp [answered, hr, char_eq]

theorem answered_change (hr : h.resp = (j + 1 : Nat)) (hj : j < 127) (hs : h.state = !new) :
    answered new h = { h with resp := j } := by
  have hchar : char (h.resp - 1) = j := by
    rw [hr, char_eq (by omega) (by omega)]
    omega
  have hne : h.resp ≠ 0 := by omega
  simp [answered, hne, hchar, hs]

theorem answered_same (hr : h.resp = (j + 2 : Nat)) (hj : j < 126) (hs : h.state = new) :
    answered new h = { h with resp := j } := by
  have hchar : char (h.resp - 1) = (j + 1 : Nat) := by
    rw [hr, char_eq (by omega) (by omega)]
    omega
  have hchar' : char ((j + 1 : Nat) - 1) = j := by
    rw [char_eq (by omega) (by omega)]
    omega
  have hne : h.resp ≠ 0 := by omega
  have hne' : ((j + 1 : Nat) : Int) ≠ 0 := by omega
  simp only [answered, hne, hchar, hchar', hs, hne', ne_eq, not_false_eq_true, if_true, decide_true,
    Bool.and_self]

end answered

def receive (changeok new : Bool) (h : Half) : Half × List Bool :=
  if new then recvPositive changeok h else recvNegative h

/-- From the state `b` on the messages alternate, and they end with the state `w`. -/
def Leads : Bool → List Bool → Bool → Prop
  | b, [], w => b = w
  | b, m :: l, w => m = !b ∧ Leads m l w

theorem Leads.append {b w : Bool} {l : List Bool} (h : Leads b l w) : Leads b (l ++ [!w]) (!w) := by
  induction l generalizing b with
  | nil => exact ⟨congrArg (! ·) h.symm, rfl⟩
  | cons m l ih => exact ⟨h.1, ih h.2⟩

theorem parity_not {w s : Bool} {j : Nat} (h : w = s ↔ j % 2 = 0) :
    (!w) = s ↔ (j + 1) % 2 = 0 := by
  cases w <;> cases s <;> simp at h ⊢ <;> omega

section both

variable {x y : Half} {xy yx : List Bool} {j k sent requests : Nat} {m new : Bool}

/-- Two sides that accept, with `j` and `k` requests that are not answered. -/
structure Both (x y : Half) (xy yx : List Bool) (j k sent requests : Nat) : Prop where
  toY : Leads y.state xy x.want
  toX : Leads x.state yx y.want
  respX : x.resp = j
  respY : y.resp = k
  boundX : j ≤ 127
  boundY : k ≤ 127
  total : j + k = xy.length + yx.length
  wantX : x.want = x.state ↔ j % 2 = 0
  wantY : y.want = y.state ↔ k % 2 = 0
  -- an answer is sent when no request is left, and brings the two numbers closer
  sent : sent + (j - yx.length) + (yx.length - j) ≤ 2 * requests

theorem Both.symm (h : Both x y xy yx j k sent requests) : Both y x yx xy k j sent requests where
  toY := h.toX
  toX := h.toY
  respX := h.respY
  respY := h.respX
  boundX := h.boundY
  boundY := h.boundX
  total := by
    have := h.total
    omega
  wantX := h.wantY
  wantY := h.wantX
  sent := by
    have := h.total
    have := h.sent
    omega

theorem Both.request (h : Both x y xy yx j k sent requests) (hj : j ≠ 127) (new : Bool) :
    ∃ j', Both (sendOption new true x).1 y (xy ++ (sendOption new true x).2) yx j' k
      (sent + (sendOption new true x).2.length) (requests + (sendOption new true x).2.length) := by
  have hbound := h.boundX
  by_cases hwant : x.want = new
  · refine ⟨j, ?_⟩
    simpa [sendOption, hwant] using h
  · -- a request that is not wanted yet is not the state of an option at rest
    have hrest : ¬ (x.resp = 0 ∧ x.state = new) := by
      rintro ⟨hr, hs⟩
      have hj0 : j = 0 := by
        have := h.respX
        omega
      exact hwant ((h.wantX.2 (by simp [hj0])).trans hs)
    have hsend : sendOption new true x = ({ x with want := new, resp := char (x.resp + 1) }, [new]) := by
      simp only [sendOption, if_true]
      rw [if_neg]
      simpa [hwant] using hrest
    have hnew : new = !x.want := by
      revert hwant
      cases x.want <;> cases new <;> simp
    rw [hsend]
    refine ⟨j + 1, ?_, h.toX, ?_, h.respY, by omega, h.boundY, ?_, ?_, h.wantY, ?_⟩
    · rw [hnew]
      exact h.toY.append
    · simp only [h.respX]
      rw [char_eq (by omega) (by omega)]
      rfl
    · have := h.total
      simp only [List.length_append, List.length_singleton]
      omega
    · simp only [hnew]
      exact parity_not h.wantX
    · have := h.sent
      simp only [List.length_singleton]
      omega

theorem Both.receive_eq (h : Both x y xy (m :: yx) j k sent requests) :
    receive true m x =
      if j = 0 then ({ x with state := m, want := m }, [m])
      else ({ x with state := m, resp := (j - 1 : Nat) }, []) := by
  have hm : m = !x.state := h.toX.1
  have hbound := h.boundX
  by_cases hj : j = 0
  · have hr : x.resp = 0 := by
      have := h.respX
      omega
    have hw : x.want = x.state := h.wantX.2 (by simp [hj])
    rw [if_pos hj]
    obtain ⟨state, want, resp⟩ := x
    simp only at hm hr hw
    subst hr hw hm
    cases want <;> rfl
  · obtain ⟨i, rfl⟩ : ∃ i, j = i + 1 := ⟨j - 1, by omega⟩
    rw [if_neg hj]
    have hans := answered_change h.respX (by omega) (show x.state = !m by rw [hm, Bool.not_not])
    have hpar : i = 0 → x.want = m := by
      intro hi
      have := h.wantX
      rw [hi] at this
      rw [hm]
      cases hw : x.want <;> cases hs : x.state <;> simp [hw, hs] at this ⊢
    cases m with
    | true =>
      simp only [receive, recvPositive, hans, if_true]
      by_cases hi : i = 0
      · simp [hi, hpar hi]
      · simp [hi]
    | false =>
      simp only [receive, recvNegative, hans, Bool.false_eq_true, if_false]
      by_cases hi : i = 0
      · simp [hi, hpar hi]
      · simp [hi]

theorem Both.receive (h : Both x y xy (m :: yx) j k sent requests) :
    ∃ j', Both (receive true m x).1 y (xy ++ (receive true m x).2) yx j' k
      (sent + (receive true m x).2.length) requests := by
  have hm : m = !x.state := h.toX.1
  have htotal := h.total
  have hsent := h.sent
  have hpar := h.wantX
  have hbound := h.boundX
  simp only [List.length_cons] at htotal hsent
  rw [h.receive_eq]
  by_cases hj : j = 0
  · rw [if_pos hj]
    have hw : m = !x.want := by rw [hpar.2 (by simp [hj]), hm]
    refine ⟨j, ?_, h.toX.2, h.respX, h.respY, hbound, h.boundY, ?_, ?_, h.wantY, ?_⟩
    · have := h.toY.append
      rwa [← hw] at this
    · simp only [List.length_append, List.length_singleton]
      omega
    · simp [hj]
    · simp only [List.length_singleton]
      omega
  · rw [if_neg hj]
    refine ⟨j - 1, ?_, h.toX.2, rfl, h.respY, by omega, h.boundY, ?_, ?_, h.wantY, ?_⟩
    · simpa using h.toY
    · simp only [List.append_nil]
      omega
    · obtain ⟨i, rfl⟩ : ∃ i, j = i + 1 := ⟨j - 1, by omega⟩
      have := parity_not hpar
      simp only [hm]
      cases hw : x.want <;> cases hs : x.state <;> simp [hw, hs] at this ⊢ <;> omega
    · simp only [List.length_nil]
      omega

end both

section refused

variable {x y : Half} {xy yx : List Bool} {j sent requests : Nat} {m new : Bool}

/-- A side that accepts and one that does not. `j` requests are not answered: a refusal takes back
two of them, the request it refuses and the one that withdraws it, and the last one is dropped when
nothing withdraws it. -/
structure Refused (x y : Half) (xy yx : List Bool) (j sent requests : Nat) : Prop where
  stateX : x.state = false
  respX : x.resp = j
  bound : j ≤ 127
  wantY : y.want = false
  respY : y.resp = if y.state then 1 else 0
  refusals : yx = List.replicate yx.length false
  counted : Leads y.state xy x.want ∧ j + (if y.state then 1 else 0) = 2 * yx.length + xy.length ∨
    y.state = true ∧ yx = [] ∧ Leads false xy x.want ∧ j = xy.length
  sent : sent + xy.length ≤ 2 * requests

theorem Refused.want (h : Refused x y xy yx j sent requests)
    (hj : j = 0 ∨ j = 2 ∧ yx ≠ []) : x.want = false := by
  have hyx : j = 2 → 1 ≤ yx.length := fun h2 => by
    rcases hj with hj | hj
    · omega
    · exact List.length_pos_iff.2 hj.2
  rcases h.counted with ⟨hl, hc⟩ | ⟨-, hnil, hl, hc⟩
  · rcases xy with _ | ⟨m, _ | ⟨m', xy⟩⟩
    · cases hs : y.state
      · rw [← show y.state = x.want from hl, hs]
      · rw [hs] at hc
        simp only [if_true, List.length_nil] at hc
        omega
    · cases hs : y.state <;> rw [hs] at hc <;> simp at hc
      · omega
      · rw [hs] at hl
        obtain ⟨rfl, hw⟩ := hl
        exact hw.symm
    · simp only [List.length_cons] at hc
      split at hc <;> omega
  · rcases hj with hj | hj
    · rw [hj] at hc
      rw [List.eq_nil_of_length_eq_zero hc.symm] at hl
      exact hl.symm
    · exact absurd hnil hj.2

theorem Refused.request (h : Refused x y xy yx j sent requests) (hj : j ≠ 127) (new : Bool) :
    ∃ j', Refused (sendOption new true x).1 y (xy ++ (sendOption new true x).2) yx j'
      (sent + (sendOption new true x).2.length) (requests + (sendOption new true x).2.length) := by
  have hbound := h.bound
  by_cases hwant : x.want = new
  · refine ⟨j, ?_⟩
    simpa [sendOption, hwant] using h
  · have hrest : ¬ (x.resp = 0 ∧ x.state = new) := by
      rintro ⟨hr, hs⟩
      have hj0 : j = 0 := by
        have := h.respX
        omega
      exact hwant ((h.want (.inl hj0)).trans (h.stateX.symm.trans hs))
    have hsend : sendOption new true x = ({ x with want := new, resp := char (x.resp + 1) }, [new]) := by
      simp only [sendOption, if_true]
      rw [if_neg]
      simpa [hwant] using hrest
    have hnew : new = !x.want := by
      revert hwant
      cases x.want <;> cases new <;> simp
    rw [hsend]
    refine ⟨j + 1, h.stateX, ?_, by omega, h.wantY, h.respY, h.refusals, ?_, ?_⟩
    · simp only [h.respX]
      rw [char_eq (by omega) (by omega)]
      rfl
    · simp only [List.length_append, List.length_singleton, hnew]
      rcases h.counted with ⟨hl, hc⟩ | ⟨hs, hnil, hl, hc⟩
      · exact .inl ⟨hl.append, by omega⟩
      · exact .inr ⟨hs, hnil, hl.append, by omega⟩
    · have := h.sent
      simp only [List.length_append, List.length_singleton]
      omega

theorem Refused.idle (h : Refused x y xy yx j sent requests) : sendOption false true y = (y, []) := by
  simp [sendOption, h.wantY]

theorem recvNegative_quiet {x z : Half} (hz : answered false x = z) (hs : z.state = false)
    (hw : z.resp = 0 → z.want = false) : recvNegative x = (z, []) := by
  obtain ⟨state, want, resp⟩ := z
  simp only at hs hw
  subst hs
  simp only [recvNegative, hz]
  by_cases hr : resp = 0
  · simp [hr, hw hr]
  · simp [hr]

theorem Refused.refusal (h : Refused x y xy (m :: yx) j sent requests) :
    ∃ j', Refused (receive true m x).1 y (xy ++ (receive true m x).2) yx j'
      (sent + (receive true m x).2.length) requests := by
  have hbound := h.bound
  have hm : m = false ∧ yx = List.replicate yx.length false := by
    have := h.refusals
    simpa [List.replicate_succ] using this
  obtain ⟨rfl, hyx⟩ := hm
  obtain ⟨hl, hc⟩ : Leads y.state xy x.want ∧
      j + (if y.state then 1 else 0) = 2 * (yx.length + 1) + xy.length := by
    rcases h.counted with hc | ⟨-, hnil, -⟩
    · exact hc
    · cases hnil
  simp only [receive, Bool.false_eq_true, if_false]
  have hone : j = 1 → y.state = true ∧ yx = [] ∧ xy = [] ∧ x.want = true := by
    intro hj
    cases hs : y.state <;> rw [hs] at hc <;> simp at hc
    · omega
    · have h₁ : yx = [] := List.eq_nil_of_length_eq_zero (by omega)
      have h₂ : xy = [] := List.eq_nil_of_length_eq_zero (by omega)
      rw [hs, h₂] at hl
      exact ⟨rfl, h₁, h₂, hl.symm⟩
  by_cases hj : j = 1
  · -- nothing withdraws the request: it is dropped
    obtain ⟨hs, rfl, rfl, hw⟩ := hone hj
    have hrecv : recvNegative x = ({ x with want := false, resp := 0 }, []) := by
      simp [recvNegative, answered_one (show x.resp = 1 by rw [h.respX, hj]; rfl), hw, h.stateX]
    rw [hrecv]
    refine ⟨0, ?_⟩
    refine ⟨h.stateX, rfl, by omega, h.wantY, h.respY, rfl, .inr ⟨hs, rfl, rfl, rfl⟩, ?_⟩
    have := h.sent
    simpa using this
  · have hge : 2 ≤ j := by
      have : 0 < j := by
        by_contra hj0
        split at hc <;> omega
      omega
    obtain ⟨i, rfl⟩ : ∃ i, j = i + 2 := ⟨j - 2, by omega⟩
    rw [recvNegative_quiet (answered_same h.respX (by omega) h.stateX) h.stateX fun hi => by
      replace hi : (i : Int) = 0 := hi
      exact h.want (.inr ⟨by omega, by simp⟩)]
    refine ⟨i, h.stateX, rfl, by omega, h.wantY, h.respY, hyx, .inl ⟨?_, ?_⟩, ?_⟩
    · simpa using hl
    · simp only [List.append_nil]
      omega
    · have := h.sent
      simpa using this

theorem Refused.receive (h : Refused x y (m :: xy) yx j sent requests) :
    Refused x (receive false m y).1 xy (yx ++ (receive false m y).2) j
      (sent + (receive false m y).2.length) requests := by
  have hsent := h.sent
  have hwant := h.wantY
  have hresp := h.respY
  obtain ⟨state, want, resp⟩ := y
  simp only at hwant
  subst hwant
  have hrep : ∀ n, List.replicate n false ++ [false] = List.replicate (n + 1) false := fun n => by
    rw [List.replicate_succ']
  have hrefused : yx ++ [false] = List.replicate (yx ++ [false]).length false := by
    rw [List.length_append, List.length_singleton, ← hrep, ← h.refusals]
  simp only [List.length_cons] at hsent
  rcases h.counted with ⟨hl, hc⟩ | ⟨hs, hnil, hl, hc⟩
  · cases state with
    | false =>
      obtain rfl : resp = 0 := hresp
      obtain ⟨rfl, hl⟩ := hl
      refine ⟨h.stateX, h.respX, h.bound, rfl, rfl, hrefused, .inl ⟨hl, ?_⟩, ?_⟩
      · simp only [List.length_cons, Bool.false_eq_true, if_false] at hc
        change j + 1 = 2 * (yx ++ [false]).length + xy.length
        simp only [List.length_append, List.length_singleton]
        omega
      · change sent + 1 + xy.length ≤ 2 * requests
        omega
    | true =>
      obtain rfl : resp = 1 := hresp
      obtain ⟨rfl, hl⟩ := hl
      refine ⟨h.stateX, h.respX, h.bound, rfl, rfl, ?_, .inl ⟨hl, ?_⟩, ?_⟩
      · change yx ++ [] = List.replicate (yx ++ []).length false
        rw [List.append_nil]
        exact h.refusals
      · simp only [List.length_cons, if_true] at hc
        change j + 0 = 2 * (yx ++ []).length + xy.length
        rw [List.append_nil]
        omega
      · change sent + 0 + xy.length ≤ 2 * requests
        omega
  · simp only at hs
    subst hs hnil
    obtain rfl : resp = 1 := hresp
    obtain ⟨rfl, hl⟩ := hl
    refine ⟨h.stateX, h.respX, h.bound, rfl, rfl, rfl, .inl ⟨hl, ?_⟩, ?_⟩
    · simp only [List.length_cons] at hc
      change j + 1 = 2 * 1 + xy.length
      omega
    · change sent + 1 + xy.length ≤ 2 * requests
      omega

end refused

section joint

variable {a b : Bool} {x y : Half} {xy yx : List Bool} {sent requests : Nat} {m new : Bool}

/-- Two sides of which the first accepts if `a` and the second if `b`. -/
def Joint (a b : Bool) (x y : Half) (xy yx : List Bool) (sent requests : Nat) : Prop :=
  match a, b with
  | true, true => ∃ j k, Both x y xy yx j k sent requests
  | true, false => ∃ j, Refused x y xy yx j sent requests
  | false, true => ∃ j, Refused y x yx xy j sent requests
  | false, false => x = .off ∧ y = .off ∧ xy = [] ∧ yx = [] ∧ sent = 0

theorem Joint.symm (h : Joint a b x y xy yx sent requests) :
    Joint b a y x yx xy sent requests := by
  cases a <;> cases b
  · obtain ⟨hx, hy, hxy, hyx, hs⟩ := h
    exact ⟨hy, hx, hyx, hxy, hs⟩
  · exact h
  · exact h
  · obtain ⟨j, k, h⟩ := h
    exact ⟨k, j, h.symm⟩

theorem Joint.request (h : Joint a b x y xy yx sent requests) (hnew : new = true → a = true)
    (hresp : x.resp ≠ 127) :
    Joint a b (sendOption new true x).1 y (xy ++ (sendOption new true x).2) yx
      (sent + (sendOption new true x).2.length) (requests + (sendOption new true x).2.length) := by
  have hneg : a = false → new = false := by
    intro ha
    cases new with
    | false => rfl
    | true => exact absurd (hnew rfl) (by simp [ha])
  cases a <;> cases b
  · obtain ⟨rfl, rfl, rfl, rfl, rfl⟩ := h
    rw [hneg rfl]
    exact ⟨rfl, rfl, rfl, rfl, rfl⟩
  · obtain ⟨j, h⟩ := h
    rw [hneg rfl, h.idle]
    exact ⟨j, by simpa using h⟩
  · obtain ⟨j, h⟩ := h
    refine h.request (fun hj => hresp ?_) new
    rw [h.respX, hj]
    rfl
  · obtain ⟨j, k, h⟩ := h
    obtain ⟨j', h'⟩ := h.request (fun hj => hresp (by rw [h.respX, hj]; rfl)) new
    exact ⟨j', k, h'⟩

theorem Joint.receive (h : Joint a b x y xy (m :: yx) sent requests) :
    Joint a b (receive a m x).1 y (xy ++ (receive a m x).2) yx
      (sent + (receive a m x).2.length) requests := by
  cases a <;> cases b
  · obtain ⟨-, -, -, hnil, -⟩ := h
    cases hnil
  · obtain ⟨j, h⟩ := h
    exact ⟨j, h.receive⟩
  · obtain ⟨j, h⟩ := h
    exact h.refusal
  · obtain ⟨j, k, h⟩ := h
    obtain ⟨j', h'⟩ := h.receive
    exact ⟨j', k, h'⟩

theorem joint_start (a b : Bool) : Joint a b .off .off [] [] 0 0 := by
  cases a <;> cases b
  · exact ⟨rfl, rfl, rfl, rfl, rfl⟩
  · exact ⟨0, rfl, rfl, by decide, rfl, rfl, rfl, .inl ⟨rfl, rfl⟩, by decide⟩
  · exact ⟨0, rfl, rfl, by decide, rfl, rfl, rfl, .inl ⟨rfl, rfl⟩, by decide⟩
  · exact ⟨0, 0, rfl, rfl, rfl, rfl, by decide, by decide, rfl, by decide, by decide, by decide⟩

theorem Joint.sent_le (h : Joint a b x y xy yx sent requests) : sent ≤ 2 * requests := by
  cases a <;> cases b
  · obtain ⟨-, -, -, -, rfl⟩ := h
    omega
  · obtain ⟨j, h⟩ := h
    have := h.sent
    omega
  · obtain ⟨j, h⟩ := h
    have := h.sent
    omega
  · obtain ⟨j, k, h⟩ := h
    have := h.sent
    omega

theorem Joint.resp (h : Joint a b x y xy yx sent requests) : 0 ≤ x.resp := by
  cases a <;> cases b
  · obtain ⟨rfl, -⟩ := h
    exact Int.le_refl 0
  · obtain ⟨j, h⟩ := h
    rw [h.respY]
    split <;> omega
  · obtain ⟨j, h⟩ := h
    have := h.respX
    omega
  · obtain ⟨j, k, h⟩ := h
    have := h.respX
    omega

theorem Refused.rest {j : Nat} (h : Refused x y [] [] j sent requests) : x.want = false := by
  rcases h.counted with ⟨hl, hc⟩ | ⟨-, -, hl, -⟩
  · cases hs : y.state
    · rw [← show y.state = x.want from hl, hs]
    · rw [hs] at hc
      simp at hc
  · exact hl.symm

theorem Joint.rest (h : Joint a b x y [] [] sent requests) :
    x.want = y.want ∧ (x.want = true → x.resp = 0 ∧ y.resp = 0 ∧ x.state = true ∧ y.state = true) := by
  cases a <;> cases b
  · obtain ⟨rfl, rfl, -⟩ := h
    exact ⟨rfl, fun h => by cases h⟩
  · obtain ⟨j, h⟩ := h
    have hy := h.rest
    have hx := h.wantY
    refine ⟨by rw [hx, hy], fun h => ?_⟩
    rw [hx] at h
    cases h
  · obtain ⟨j, h⟩ := h
    have hx := h.rest
    have hy := h.wantY
    refine ⟨by rw [hx, hy], fun h => ?_⟩
    rw [hx] at h
    cases h
  · obtain ⟨j, k, h⟩ := h
    have htotal := h.total
    simp only [List.length_nil] at htotal
    obtain ⟨rfl, rfl⟩ : j = 0 ∧ k = 0 := by omega
    have hx : x.want = x.state := h.wantX.2 rfl
    have hy : y.state = x.want := h.toY
    have hyw : x.state = y.want := h.toX
    refine ⟨hx.trans hyw, fun hw => ⟨h.respX, h.respY, hx.symm.trans hw, hy.trans hw⟩⟩

end joint

section negotiation

variable {pol : Policy} {n n' : Net} {e : Event}

structure Agreed (n : Net) : Prop where
  sent : n.sent ≤ 2 * n.requests
  asks : 0 ≤ n.asks.resp
  does : 0 ≤ n.does.resp
  want : n.toDoes = [] → n.toAsks = [] → n.asks.want = n.does.want
  settled : n.toDoes = [] → n.toAsks = [] → n.asks.want = true →
    n.asks.resp = 0 ∧ n.does.resp = 0 ∧ n.asks.state = true ∧ n.does.state = true

def Counts (n : Net) : Event → Prop
  | .askDo | .askDont => n.asks.resp ≠ 127
  | .askWill | .askWont => n.does.resp ≠ 127
  | .toAsks | .toDoes => True

/-- The messages on their way are `DO` and `DONT` one way, `WILL` and `WONT` the other. -/
def Inv (pol : Policy) (n : Net) : Prop :=
  ∃ xy yx, n.toDoes = xy.map dos ∧ n.toAsks = yx.map wills ∧
    Joint pol.asks pol.does n.asks n.does xy yx n.sent n.requests

theorem Inv.fromAsks {r : Half × List Bool} {init : Bool} {xy yx : List Bool}
    (hxy : n.toDoes = xy.map dos) (hyx : n.toAsks = yx.map wills)
    (h : Joint pol.asks pol.does r.1 n.does (xy ++ r.2) yx (n.sent + r.2.length)
      (if init then n.requests + r.2.length else n.requests)) :
    Inv pol (n.fromAsks init (encode dos r)) :=
  ⟨xy ++ r.2, yx, by simp [Net.fromAsks, encode, hxy], hyx, by simpa [Net.fromAsks, encode] using h⟩

theorem Inv.fromDoes {r : Half × List Bool} {init : Bool} {xy yx : List Bool}
    (hxy : n.toDoes = xy.map dos) (hyx : n.toAsks = yx.map wills)
    (h : Joint pol.does pol.asks r.1 n.asks (yx ++ r.2) xy (n.sent + r.2.length)
      (if init then n.requests + r.2.length else n.requests)) :
    Inv pol (n.fromDoes init (encode wills r)) :=
  ⟨xy, yx ++ r.2, hxy, by simp [Net.fromDoes, encode, hyx],
    by simpa [Net.fromDoes, encode] using h.symm⟩

theorem step_inv (h : Inv pol n) (hok : Counts n e) (hstep : step pol n e = some n') :
    Inv pol n' := by
  obtain ⟨xy, yx, hxy, hyx, hj⟩ := h
  cases e with
  | askDo =>
    simp only [step] at hstep
    by_cases hp : pol.asks = true
    · rw [if_pos hp] at hstep
      cases hstep
      exact Inv.fromAsks hxy hyx (hj.request (fun _ => hp) hok)
    · rw [if_neg hp] at hstep
      cases hstep
  | askDont =>
    cases hstep
    exact Inv.fromAsks hxy hyx (hj.request (fun h => by cases h) hok)
  | askWill =>
    simp only [step] at hstep
    by_cases hp : pol.does = true
    · rw [if_pos hp] at hstep
      cases hstep
      exact Inv.fromDoes hxy hyx (hj.symm.request (fun _ => hp) hok)
    · rw [if_neg hp] at hstep
      cases hstep
  | askWont =>
    cases hstep
    exact Inv.fromDoes hxy hyx (hj.symm.request (fun h => by cases h) hok)
  | toAsks =>
    cases yx with
    | nil =>
      simp only [step, hyx, List.map_nil] at hstep
      cases hstep
    | cons m yx =>
      have hr := hj.receive
      cases m with
      | true =>
        simp only [step, hyx, List.map_cons, wills, if_true] at hstep
        cases hstep
        exact Inv.fromAsks (n := { n with toAsks := yx.map wills }) hxy rfl hr
      | false =>
        simp only [step, hyx, List.map_cons, wills, Bool.false_eq_true, if_false] at hstep
        cases hstep
        exact Inv.fromAsks (n := { n with toAsks := yx.map wills }) hxy rfl hr
  | toDoes =>
    cases xy with
    | nil =>
      simp only [step, hxy, List.map_nil] at hstep
      cases hstep
    | cons m xy =>
      have hr := hj.symm.receive
      cases m with
      | true =>
        simp only [step, hxy, List.map_cons, dos, if_true] at hstep
        cases hstep
        exact Inv.fromDoes (n := { n with toDoes := xy.map dos }) rfl hyx hr
      | false =>
        simp only [step, hxy, List.map_cons, dos, Bool.false_eq_true, if_false] at hstep
        cases hstep
        exact Inv.fromDoes (n := { n with toDoes := xy.map dos }) rfl hyx hr

theorem reached_inv (h : Reached pol Counts n) : Inv pol n := by
  induction h with
  | start => exact ⟨[], [], rfl, rfl, joint_start _ _⟩
  | step _ hok hstep ih => exact step_inv ih hok hstep

/-- Whatever the two sides accept and ask for, and in whatever order messages arrive: they do not
loop, the counters do not become negative, and when nothing is on its way they agree. -/
theorem negotiation_agrees (pol : Policy) (n : Net) (h : Reached pol Counts n) : Agreed n := by
  obtain ⟨xy, yx, hxy, hyx, hj⟩ := reached_inv h
  have hrest : n.toDoes = [] → n.toAsks = [] → Joint pol.asks pol.does n.asks n.does [] [] n.sent
      n.requests := by
    intro hd ha
    rw [hxy, List.map_eq_nil_iff] at hd
    rw [hyx, List.map_eq_nil_iff] at ha
    rwa [hd, ha] at hj
  exact ⟨hj.sent_le, hj.resp, hj.symm.resp, fun hd ha => (hrest hd ha).rest.1,
    fun hd ha => (hrest hd ha).rest.2⟩

def run (pol : Policy) : Net → List Event → Option Net
  | n, [] => some n
  | n, e :: es => (step pol n e).bind fun n => run pol n es

theorem reached_run {ok : Net → Event → Prop} (hok : ∀ n e, ok n e) {es : List Event}
    (h : Reached pol ok n) (hrun : run pol n es = some n') : Reached pol ok n' := by
  induction es generalizing n with
  | nil =>
    cases hrun
    exact h
  | cons e es ih =>
    obtain ⟨n₁, hstep, hrun⟩ := Option.bind_eq_some_iff.1 hrun
    exact ih (h.step (hok n e) hstep) hrun

theorem negotiation_agrees_do :
    ∃ n, Reached ⟨true, true⟩ Counts n ∧ n.does.state = true ∧ n.toDoes = [] ∧ Agreed n := by
  have h₁ : Reached ⟨true, true⟩ Counts ⟨⟨false, true, 1⟩, .off, [.doopt], [], 1, 1⟩ :=
    .step (e := .askDo) .start (show (0 : Int) ≠ 127 by decide) (by decide)
  have h₂ : Reached ⟨true, true⟩ Counts ⟨⟨false, true, 1⟩, ⟨true, true, 0⟩, [], [.will], 2, 1⟩ :=
    h₁.step (e := .toDoes) trivial (by decide)
  have h₃ : Reached ⟨true, true⟩ Counts ⟨⟨true, true, 0⟩, ⟨true, true, 0⟩, [], [], 2, 1⟩ :=
    h₂.step (e := .toAsks) trivial (by decide)
  exact ⟨_, h₃, rfl, rfl, negotiation_agrees _ _ h₃⟩

/-- `DO` and `DONT` in turn, with no answer in between. -/
def asking : List Event := (List.replicate 64 [.askDo, .askDont]).flatten

/-- After 128 requests the counter of the side that asks is negative. -/
theorem negotiation_overflows :
    ∃ n, Reached ⟨true, true⟩ (fun _ _ => True) n ∧ n.asks.resp = -128 ∧ ¬ Agreed n := by
  have hrun : ((run ⟨true, true⟩ .start asking).map fun n => n.asks.resp) = some (-128) := by
    decide +kernel
  obtain ⟨n, hn, hresp⟩ := Option.map_eq_some_iff.1 hrun
  refine ⟨n, reached_run (fun _ _ => trivial) .start hn, hresp, fun h => ?_⟩
  have := h.asks
  omega

end negotiation

end Bsdi.Telnet
