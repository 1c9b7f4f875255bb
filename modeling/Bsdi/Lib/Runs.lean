import Bsdi.Lib.Ensures

/-!
# Runs of fallible machines

A machine takes a list of operations, gives a reply to each one and stops at the first
error. What holds of one step, from every state in which the operation is admitted, holds
of whole runs.
-/

namespace Bsdi.Lib

universe u v

variable {ε : Type u} {σ ω ρ τ : Type v}

/-- Run the operations in order and collect the replies. -/
def run (step : σ → ω → Except ε (ρ × σ)) : σ → List ω → Except ε (List ρ × σ)
  | s, [] => .ok ([], s)
  | s, a :: as => do
    let (r, s) ← step s a
    let (rs, s) ← run step s as
    .ok (r :: rs, s)

def specRun (spec : τ → ω → ρ × τ) : τ → List ω → List ρ × τ
  | m, [] => ([], m)
  | m, a :: as => ((spec m a).1 :: (specRun spec (spec m a).2 as).1, (specRun spec (spec m a).2 as).2)

/-- Every operation is admitted in the state it is run in. -/
def Admitted (step : σ → ω → Except ε (ρ × σ)) (ok : σ → ω → Prop) : σ → List ω → Prop
  | _, [] => True
  | s, a :: as => ok s a ∧ ∀ r s', step s a = .ok (r, s') → Admitted step ok s' as

variable {step : σ → ω → Except ε (ρ × σ)} {spec : τ → ω → ρ × τ} {ok : σ → ω → Prop}
variable {E : ε → Prop} {R : σ → τ → Prop} {s : σ} {m : τ} {as : List ω}

theorem Admitted.and {P : ω → Prop} (h : Admitted step ok s as) (hP : ∀ a ∈ as, P a) :
    Admitted step (fun s a => ok s a ∧ P a) s as := by
  induction as generalizing s with
  | nil => trivial
  | cons a as ih =>
    exact ⟨⟨h.1, hP a (by simp)⟩, fun r s' heq =>
      ih (h.2 r s' heq) fun b hb => hP b (List.mem_cons_of_mem a hb)⟩

/-- A check that every operation of a run is admitted. -/
def admits (step : σ → ω → Except ε (ρ × σ)) (check : σ → ω → Bool) : σ → List ω → Bool
  | _, [] => true
  | s, a :: as => check s a &&
    match step s a with
    | .ok (_, s') => admits step check s' as
    | .error _ => true

theorem admitted_of_admits {check : σ → ω → Bool} (hcheck : ∀ s a, check s a = true → ok s a)
    (h : admits step check s as = true) : Admitted step ok s as := by
  induction as generalizing s with
  | nil => trivial
  | cons a as ih =>
    rw [admits, Bool.and_eq_true] at h
    refine ⟨hcheck s a h.1, fun r s' heq => ih ?_⟩
    rw [heq] at h
    exact h.2

/-- A machine whose steps follow those of a specification gives the same replies in every
run. -/
theorem run_simulates
    (hstep : ∀ s m a, R s m → ok s a →
      Ensures E (step s a) fun r => r.1 = (spec m a).1 ∧ R r.2 (spec m a).2)
    (h : R s m) (has : Admitted step ok s as) :
    Ensures E (run step s as) fun r =>
      r.1 = (specRun spec m as).1 ∧ R r.2 (specRun spec m as).2 := by
  induction as generalizing s m with
  | nil => exact ⟨rfl, h⟩
  | cons a as ih =>
    obtain ⟨hok, hrest⟩ := has
    have hone := hstep s m a h hok
    rw [run]
    cases heq : step s a with
    | error e =>
      rw [heq] at hone
      exact hone
    | ok r =>
      rw [heq] at hone
      obtain ⟨hreply, hrel⟩ := hone
      refine (ih hrel (hrest r.1 r.2 heq)).bind fun rs hrs => ?_
      exact ⟨by rw [specRun, hreply, hrs.1], hrs.2⟩

/-- An invariant of the steps holds after every run. -/
theorem run_invariant {I : σ → Prop}
    (hstep : ∀ s a, I s → ok s a → Ensures E (step s a) fun r => I r.2)
    (h : I s) (has : Admitted step ok s as) : Ensures E (run step s as) fun r => I r.2 := by
  induction as generalizing s with
  | nil => exact h
  | cons a as ih =>
    obtain ⟨hok, hrest⟩ := has
    have hone := hstep s a h hok
    rw [run]
    cases heq : step s a with
    | error e =>
      rw [heq] at hone
      exact hone
    | ok r =>
      rw [heq] at hone
      exact (ih hone (hrest r.1 r.2 heq)).bind fun rs hrs => hrs

end Bsdi.Lib
