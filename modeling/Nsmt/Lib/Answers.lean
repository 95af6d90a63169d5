import Nsmt.Lib.Runs

/-!
# Machines that answer

A machine whose steps give an answer and a next state. `answers_eq_iff` compares
two machines over the same events by what holds of each step of the pair;
`observed_eq` is the rule for one user of a machine that many share: events of
the others do not show.
-/

namespace Nsmt.Lib

variable {σ τ ε ε' ρ : Type}

def answers (step : σ → ε → ρ × σ) : σ → List ε → List ρ
  | _, [] => []
  | s, e :: events => (step s e).1 :: answers step (step s e).2 events

def next (step : σ → ε → ρ × σ) (s : σ) (e : ε) : σ := (step s e).2

def both (step : σ → ε → ρ × σ) (step' : τ → ε → ρ × τ) (s : σ × τ) (e : ε) : σ × τ :=
  (next step s.1 e, next step' s.2 e)

/-- The answers of the own events. -/
def observed (step : σ → ε → ρ × σ) (own : ε → Bool) : σ → List ε → List ρ
  | _, [] => []
  | s, e :: events =>
    if own e then (step s e).1 :: observed step own (step s e).2 events
    else observed step own (step s e).2 events

variable {step : σ → ε → ρ × σ} {step' : τ → ε → ρ × τ}

theorem answers_eq_iff {s : σ} {t : τ} {events : List ε} :
    answers step s events = answers step' t events ↔
      AllSteps (both step step') (fun st e => (step st.1 e).1 = (step' st.2 e).1) (s, t) events := by
  induction events generalizing s t with
  | nil => simp [answers, AllSteps]
  | cons e events ih =>
    rw [answers, answers, List.cons.injEq, AllSteps]
    exact and_congr_right fun _ => ih

/-- What a user observes is what a machine of its own answers, where the own
events do the same to both and the other events do not touch what relates them. -/
theorem observed_eq {step' : τ → ε' → ρ × τ} (rel : σ → τ → Prop) {own : ε → Bool} (view : ε → ε')
    (hown : ∀ s t e, rel s t → own e = true →
      (step s e).1 = (step' t (view e)).1 ∧ rel (step s e).2 (step' t (view e)).2)
    (hother : ∀ s t e, rel s t → own e = false → rel (step s e).2 t) {s : σ} {t : τ} (h : rel s t)
    (events : List ε) :
    observed step own s events = answers step' t ((events.filter own).map view) := by
  induction events generalizing s t with
  | nil => rfl
  | cons e events ih =>
    cases he : own e with
    | true =>
      obtain ⟨hanswer, hnext⟩ := hown s t e h he
      simp [observed, he, answers, hanswer, ih hnext]
    | false => simp [observed, he, ih (hother s t e h he)]

end Nsmt.Lib
