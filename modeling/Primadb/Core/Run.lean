import Mathlib.Data.List.Basic

/-!
# Runs of a state machine

A machine takes one event after another. A condition on single steps holds along a run when
every event meets it in the state it finds. What holds at the start and is kept by every
step that meets the condition holds at the end of a run along which the condition holds.
-/

namespace Primadb.Run

variable {σ ε : Type*} {step : σ → ε → σ} {ok : σ → ε → Prop} {s : σ} {events later : List ε}

/-- The condition holds of every event in the state the event finds. -/
def Along (step : σ → ε → σ) (ok : σ → ε → Prop) : σ → List ε → Prop
  | _, [] => True
  | s, event :: events => ok s event ∧ Along step ok (step s event) events

/-- A condition that is decided at each step is decided along a run. -/
instance Along.decidable [∀ s event, Decidable (ok s event)] :
    (s : σ) → (events : List ε) → Decidable (Along step ok s events)
  | _, [] => .isTrue trivial
  | s, event :: events =>
    have := Along.decidable (step s event) events
    inferInstanceAs (Decidable (ok s event ∧ Along step ok (step s event) events))

private theorem along_append :
    Along step ok s (events ++ later) ↔
      Along step ok s events ∧ Along step ok (events.foldl step s) later := by
  induction events generalizing s with
  | nil => simp [Along]
  | cons event events ih => simp only [List.cons_append, Along, List.foldl_cons, ih, and_assoc]

/-- The last event is allowed where the others lead. -/
theorem along_concat {event : ε} :
    Along step ok s (events ++ [event]) ↔
      Along step ok s events ∧ ok (events.foldl step s) event := by
  rw [along_append]
  simp [Along]

/-- What every good step keeps holds after a good run. -/
theorem Along.invariant {I : σ → Prop} (hstep : ∀ {s event}, I s → ok s event → I (step s event))
    (hs : I s) (h : Along step ok s events) : I (events.foldl step s) := by
  induction events generalizing s with
  | nil => exact hs
  | cons event events ih => exact ih (hstep hs h.1) h.2

/-- What every step keeps holds after every run. -/
theorem invariant {I : σ → Prop} (hstep : ∀ s event, I s → I (step s event)) (hs : I s)
    (events : List ε) : I (events.foldl step s) := by
  induction events generalizing s with
  | nil => exact hs
  | cons event events ih => exact ih (hstep s event hs)

/-- Where one step keeps what holds exactly when it meets the condition, all states of a run have
it exactly when the condition holds along the run. -/
theorem along_iff_take {I : σ → Prop} (hstep : ∀ {s event}, I s → (ok s event ↔ I (step s event)))
    (hs : I s) : Along step ok s events ↔ ∀ n, I ((events.take n).foldl step s) := by
  induction events generalizing s with
  | nil => simp [Along, hs]
  | cons event events ih =>
    constructor
    · rintro ⟨hok, halong⟩ n
      cases n with
      | zero => exact hs
      | succ n => exact (ih ((hstep hs).mp hok)).mp halong n
    · intro h
      have hnext : I (step s event) := h 1
      exact ⟨(hstep hs).mpr hnext, (ih hnext).mpr fun n => h (n + 1)⟩

end Primadb.Run
