import Mathlib.Data.List.Basic

/-!
# Runs of a machine

A machine is a step function on states; an event that is not enabled leaves the
state alone. `AllSteps` says that each event of a run meets a condition in the
state it finds, and `run_invariant` is the rule that turns what one such step
preserves into what every such run preserves.
-/

namespace Nsmt.Lib

variable {σ ε : Type} (step : σ → ε → σ)

def run (s : σ) (events : List ε) : σ := events.foldl step s

@[simp] theorem run_nil (s : σ) : run step s [] = s := rfl

@[simp] theorem run_cons (s : σ) (e : ε) (events : List ε) :
    run step s (e :: events) = run step (step s e) events := rfl

theorem run_append (s : σ) (a b : List ε) : run step s (a ++ b) = run step (run step s a) b :=
  List.foldl_append

def AllSteps (cond : σ → ε → Prop) : σ → List ε → Prop
  | _, [] => True
  | s, e :: events => cond s e ∧ AllSteps cond (step s e) events

instance AllSteps.decide (cond : σ → ε → Prop) [∀ s e, Decidable (cond s e)] :
    (s : σ) → (events : List ε) → Decidable (AllSteps step cond s events)
  | _, [] => isTrue trivial
  | s, e :: events =>
    have := AllSteps.decide cond (step s e) events
    inferInstanceAs (Decidable (cond s e ∧ AllSteps step cond (step s e) events))

variable {step}

theorem AllSteps.append {cond : σ → ε → Prop} {s : σ} {a b : List ε} :
    AllSteps step cond s (a ++ b) ↔ AllSteps step cond s a ∧ AllSteps step cond (run step s a) b := by
  induction a generalizing s with
  | nil => simp [AllSteps]
  | cons e a ih => simp only [List.cons_append, AllSteps, ih, run_cons, and_assoc]

theorem AllSteps.of_forall {cond : σ → ε → Prop} {s : σ} {events : List ε}
    (h : ∀ e ∈ events, ∀ s, cond s e) : AllSteps step cond s events := by
  induction events generalizing s with
  | nil => trivial
  | cons e events ih =>
    exact ⟨h e (List.mem_cons_self ..) s, ih fun d hd => h d (List.mem_cons_of_mem e hd)⟩

theorem AllSteps.congr {cond cond' : σ → ε → Prop} {s : σ} {events : List ε}
    (h : ∀ e ∈ events, ∀ s, cond s e ↔ cond' s e) :
    AllSteps step cond s events ↔ AllSteps step cond' s events := by
  induction events generalizing s with
  | nil => exact .rfl
  | cons e events ih =>
    exact and_congr (h e (List.mem_cons_self ..) s) (ih fun d hd => h d (List.mem_cons_of_mem e hd))

/-- A preorder on states that every step follows relates any two states of the
run, and the other way round. -/
theorem AllSteps.iff_between {rel : σ → σ → Prop} (hrefl : ∀ s, rel s s)
    (htrans : ∀ a b c, rel a b → rel b c → rel a c) {s : σ} {events : List ε} :
    AllSteps step (fun s e => rel s (step s e)) s events ↔
      ∀ before between after, events = before ++ (between ++ after) →
        rel (run step s before) (run step (run step s before) between) := by
  constructor
  · rintro h before between after rfl
    have hrun (mid : σ) (between : List ε)
        (hmid : AllSteps step (fun s e => rel s (step s e)) mid between) :
        rel mid (run step mid between) := by
      induction between generalizing mid with
      | nil => exact hrefl mid
      | cons e between ih => exact htrans _ _ _ hmid.1 (ih _ hmid.2)
    exact hrun _ _ (AllSteps.append.mp (AllSteps.append.mp h).2).1
  · intro h
    induction events generalizing s with
    | nil => trivial
    | cons e events ih =>
      refine ⟨h [] [e] events rfl, ih fun before between after hsplit => ?_⟩
      exact h (e :: before) between after (by rw [hsplit]; rfl)

/-- What every allowed step preserves holds at the end of every allowed run. -/
theorem run_invariant (inv : σ → Prop) {cond : σ → ε → Prop}
    (hstep : ∀ s e, inv s → cond s e → inv (step s e)) {s : σ} (hs : inv s) {events : List ε}
    (hall : AllSteps step cond s events) : inv (run step s events) := by
  induction events generalizing s with
  | nil => exact hs
  | cons e events ih => exact ih (hstep s e hs hall.1) hall.2

/-- What an invariant implies of every allowed step holds of all steps of an
allowed run. -/
theorem AllSteps.of_invariant (inv : σ → Prop) {cond goal : σ → ε → Prop}
    (hstep : ∀ s e, inv s → cond s e → inv (step s e) ∧ goal s e) {s : σ} (hs : inv s)
    {events : List ε} (hall : AllSteps step cond s events) : AllSteps step goal s events := by
  induction events generalizing s with
  | nil => trivial
  | cons e events ih =>
    obtain ⟨hnext, hgoal⟩ := hstep s e hs hall.1
    exact ⟨hgoal, ih hnext hall.2⟩

/-- Where an invariant makes a goal and a condition the same, the goal holds of all
steps of a run exactly when the condition does. -/
theorem AllSteps.iff_of_invariant (inv : σ → Prop) {cond goal : σ → ε → Prop}
    (hgoal : ∀ s e, inv s → (goal s e ↔ cond s e))
    (hstep : ∀ s e, inv s → cond s e → inv (step s e)) {s : σ} (hs : inv s) {events : List ε} :
    AllSteps step goal s events ↔ AllSteps step cond s events := by
  induction events generalizing s with
  | nil => exact .rfl
  | cons e events ih =>
    rw [AllSteps, AllSteps, hgoal s e hs]
    exact and_congr_right fun hc => ih (hstep s e hs hc)

/-- A condition that looks at a part of the state only, where that part is a
machine of its own. -/
theorem AllSteps.map {τ : Type} {step' : τ → ε → τ} (f : σ → τ)
    (h : ∀ s e, f (step s e) = step' (f s) e) (cond : τ → ε → Prop) {s : σ} {events : List ε} :
    AllSteps step (fun s e => cond (f s) e) s events ↔ AllSteps step' cond (f s) events := by
  induction events generalizing s with
  | nil => exact .rfl
  | cons e events ih =>
    rw [AllSteps, AllSteps, ih, h]

/-- Two runs side by side, of which the second leaves out the events that are
not kept: a kept event moves both, another one only the first. -/
theorem run_filter (rel : σ → σ → Prop) {cond : σ → ε → Prop} {keep : ε → Bool}
    (hkeep : ∀ s t e, rel s t → cond s e → keep e = true → rel (step s e) (step t e))
    (hdrop : ∀ s t e, rel s t → cond s e → keep e = false → rel (step s e) t) {s t : σ}
    (h : rel s t) {events : List ε} (hall : AllSteps step cond s events) :
    rel (run step s events) (run step t (events.filter keep)) := by
  induction events generalizing s t with
  | nil => exact h
  | cons e events ih =>
    cases hk : keep e with
    | true =>
      rw [List.filter_cons_of_pos hk, run_cons, run_cons]
      exact ih (hkeep s t e h hall.1 hk) hall.2
    | false =>
      rw [List.filter_cons_of_neg (by simp [hk]), run_cons]
      exact ih (hdrop s t e h hall.1 hk) hall.2

/-- A decomposition of one event more splits off that event, or an earlier one. -/
theorem snoc_eq_append_cons {α : Type} {events before after : List α} {e d : α}
    (h : events ++ [e] = before ++ d :: after) :
    (before = events ∧ d = e ∧ after = []) ∨ ∃ rest, after = rest ++ [e] ∧ events = before ++ d :: rest := by
  rcases List.eq_nil_or_concat after with rfl | ⟨rest, x, rfl⟩
  · obtain ⟨hb, hd⟩ := List.append_inj' h rfl
    exact .inl ⟨hb.symm, (List.singleton_inj.mp hd).symm, rfl⟩
  · rw [List.concat_eq_append, ← List.cons_append, ← List.append_assoc] at h
    obtain ⟨hb, hd⟩ := List.append_inj' h rfl
    rw [List.singleton_inj.mp hd]
    exact .inr ⟨rest, by simp, hb⟩

/-- The run comes to the event `e` in the state `t`. -/
def Reaches (step : σ → ε → σ) (s : σ) (events : List ε) (t : σ) (e : ε) : Prop :=
  ∃ before after, events = before ++ e :: after ∧ t = run step s before

theorem Reaches.append {s t : σ} {e : ε} {events : List ε} (h : Reaches step s events t e)
    (more : List ε) : Reaches step s (events ++ more) t e := by
  obtain ⟨before, after, rfl, ht⟩ := h
  exact ⟨before, after ++ more, by simp, ht⟩

theorem Reaches.mem {s t : σ} {e : ε} {events : List ε} (h : Reaches step s events t e) :
    e ∈ events := by
  obtain ⟨before, after, rfl, -⟩ := h
  simp

theorem reaches_snoc {s t : σ} {e d : ε} {events : List ε} :
    Reaches step s (events ++ [d]) t e ↔
      Reaches step s events t e ∨ t = run step s events ∧ e = d := by
  constructor
  · rintro ⟨before, after, heq, ht⟩
    rcases snoc_eq_append_cons heq with ⟨rfl, rfl, -⟩ | ⟨rest, -, hsplit⟩
    · exact .inr ⟨ht, rfl⟩
    · exact .inl ⟨before, rest, hsplit, ht⟩
  · rintro (h | ⟨rfl, rfl⟩)
    · exact h.append [d]
    · exact ⟨events, [], rfl, rfl⟩

theorem AllSteps.of_reaches {cond : σ → ε → Prop} {s : σ} {events : List ε}
    (h : ∀ t e, Reaches step s events t e → cond t e) : AllSteps step cond s events := by
  induction events generalizing s with
  | nil => trivial
  | cons e events ih =>
    refine ⟨h s e ⟨[], events, rfl, rfl⟩, ih fun t d hreach => ?_⟩
    obtain ⟨before, after, rfl, ht⟩ := hreach
    exact h t d ⟨e :: before, after, rfl, ht⟩

/-- What holds behind every step holds in every state. -/
theorem AllSteps.iff_states {inv : σ → Prop} {s : σ} (hs : inv s) {events : List ε} :
    AllSteps step (fun s e => inv (step s e)) s events ↔
      ∀ before after, events = before ++ after → inv (run step s before) := by
  induction events generalizing s with
  | nil =>
    refine iff_of_true trivial fun before after heq => ?_
    rw [(List.append_eq_nil_iff.mp heq.symm).1]
    exact hs
  | cons e events ih =>
    constructor
    · rintro ⟨hnext, hrest⟩ before after heq
      cases before with
      | nil => exact hs
      | cons d before =>
        obtain ⟨rfl, htail⟩ := List.cons.inj heq
        exact (ih hnext).mp hrest before after htail
    · intro h
      have hnext : inv (step s e) := h [e] events rfl
      refine ⟨hnext, (ih hnext).mpr fun before after heq => ?_⟩
      exact h (e :: before) after (by rw [heq]; rfl)

theorem not_reaches_nil {s t : σ} {e : ε} : ¬ Reaches step s [] t e := by
  rintro ⟨before, after, heq, -⟩
  simp at heq

theorem foldlM_invariant {f : σ → ε → Option σ} (inv : σ → Prop) {events : List ε}
    (hstep : ∀ s, ∀ e ∈ events, ∀ s', inv s → f s e = some s' → inv s') {s s' : σ} (hs : inv s)
    (hrun : events.foldlM f s = some s') : inv s' := by
  induction events generalizing s with
  | nil =>
    obtain rfl := Option.some.inj hrun
    exact hs
  | cons e events ih =>
    rw [List.foldlM_cons] at hrun
    obtain ⟨mid, hmid, hrest⟩ := Option.bind_eq_some_iff.mp hrun
    exact ih (fun s e he => hstep s e (List.mem_cons_of_mem _ he))
      (hstep s e (List.mem_cons_self ..) mid hs hmid) hrest

theorem foldlM_succeeds {f : σ → ε → Option σ} (inv : σ → Prop) {events : List ε}
    (hstep : ∀ s, ∀ e ∈ events, inv s → ∃ s', f s e = some s' ∧ inv s') {s : σ} (hs : inv s) :
    ∃ s', events.foldlM f s = some s' ∧ inv s' := by
  induction events generalizing s with
  | nil => exact ⟨s, rfl, hs⟩
  | cons e events ih =>
    obtain ⟨mid, hmid, hinv⟩ := hstep s e (List.mem_cons_self ..) hs
    obtain ⟨s', hrun, hinv'⟩ := ih (fun s e he => hstep s e (List.mem_cons_of_mem _ he)) hinv
    exact ⟨s', by rw [List.foldlM_cons, hmid]; exact hrun, hinv'⟩

end Nsmt.Lib
