import Mathlib.Data.Option.Basic

/-!
# Runs of a partial step function

A system is a step function that may refuse an event.  `Reach` collects the
states of all runs whose steps meet a guard, and `Reach.invariant` is the rule
every safety result is an instance of: a property of the first states that each
guarded step preserves holds in every state reached.
-/

namespace Runs

variable {S E : Type*}

/-- The states reached from `first` by steps that all meet `guard`. -/
inductive Reach (step : S → E → Option S) (guard : S → E → Prop) (first : S → Prop) :
    S → Prop
  | start {s : S} (hs : first s) : Reach step guard first s
  | step {s s' : S} {e : E} (hs : Reach step guard first s) (hg : guard s e)
      (he : step s e = some s') : Reach step guard first s'

/-- The step function iterated over a list of events. -/
def run (step : S → E → Option S) : S → List E → Option S
  | s, [] => some s
  | s, e :: es => (step s e).bind fun s' => run step s' es

/-- The same, stopped at the first event that does not meet a check. -/
def runChecked (step : S → E → Option S) (check : S → E → Bool) : S → List E → Option S
  | s, [] => some s
  | s, e :: es =>
    if check s e then (step s e).bind fun s' => runChecked step check s' es else none

theorem exists_of_any {α : Type*} {o : Option α} {check : α → Bool}
    (h : o.any check = true) : ∃ a, o = some a ∧ check a = true := by
  cases o with
  | none => cases h
  | some a => exact ⟨a, rfl, h⟩

section

variable {step : S → E → Option S} {guard guard' : S → E → Prop} {first : S → Prop}

/-- What holds at first and is preserved by every guarded step holds throughout. -/
theorem Reach.invariant {P : S → Prop} (hfirst : ∀ s, first s → P s)
    (hstep : ∀ s e s', P s → guard s e → step s e = some s' → P s')
    {s : S} (h : Reach step guard first s) : P s := by
  induction h with
  | start hs => exact hfirst _ hs
  | step _ hg he ih => exact hstep _ _ _ ih hg he

/-- A stronger guard reaches fewer states. -/
theorem Reach.mono (hguard : ∀ s e, guard s e → guard' s e) {s : S}
    (h : Reach step guard first s) : Reach step guard' first s := by
  induction h with
  | start hs => exact .start hs
  | step _ hg he ih => exact ih.step (hguard _ _ hg) he

/-- A condition that the states reached so far imply may be added to the guard. -/
theorem Reach.strengthen {P : S → Prop} (hP : ∀ {s}, Reach step guard' first s → P s)
    (hguard : ∀ s e s', P s → guard s e → step s e = some s' → guard' s e) {s : S}
    (h : Reach step guard first s) : Reach step guard' first s := by
  induction h with
  | start hs => exact .start hs
  | step _ hg he ih => exact ih.step (hguard _ _ _ (hP ih) hg he) he

/-- The end of an unguarded run over a list of events is reached. -/
theorem Reach.of_run {s s' : S} {es : List E}
    (hs : Reach step (fun _ _ => True) first s) (hrun : run step s es = some s') :
    Reach step (fun _ _ => True) first s' := by
  induction es generalizing s with
  | nil =>
      obtain rfl : s = s' := by simpa [run] using hrun
      exact hs
  | cons e es ih =>
      obtain ⟨u, hu, hrest⟩ := Option.bind_eq_some_iff.mp hrun
      exact ih (hs.step trivial hu) hrest

/-- One more event at the end of a run. -/
theorem run_concat (s : S) (es : List E) (e : E) :
    run step s (es ++ [e]) = (run step s es).bind fun s' => step s' e := by
  induction es generalizing s with
  | nil => simp [run]
  | cons d es ih =>
      rw [List.cons_append]
      unfold run
      rw [Option.bind_assoc]
      exact congrArg _ (funext ih)

/-- What relates the states to the events so far, step by step, relates them in a whole run. -/
theorem runChecked_simulates {A : Type*} {P : S → A → Prop} {f : A → E → A}
    {check : S → E → Bool}
    (hstep : ∀ s a e s', P s a → check s e = true → step s e = some s' → P s' (f a e))
    {s s' : S} {a : A} {es : List E} (h : P s a) (hrun : runChecked step check s es = some s') :
    P s' (es.foldl f a) := by
  induction es generalizing s a with
  | nil =>
      obtain rfl : s = s' := by simpa [runChecked] using hrun
      exact h
  | cons e es ih =>
      unfold runChecked at hrun
      split at hrun
      · next hc =>
        obtain ⟨u, hu, hrest⟩ := Option.bind_eq_some_iff.mp hrun
        exact ih (hstep s a e u h hc hu) hrest
      · cases hrun

theorem Reach.of_runChecked {check : S → E → Bool} {s s' : S} {es : List E}
    (hs : Reach step (fun s e => check s e = true) first s)
    (hrun : runChecked step check s es = some s') :
    Reach step (fun s e => check s e = true) first s' := by
  induction es generalizing s with
  | nil =>
      obtain rfl : s = s' := by simpa [runChecked] using hrun
      exact hs
  | cons e es ih =>
      unfold runChecked at hrun
      split at hrun
      · next hc =>
        obtain ⟨u, hu, hrest⟩ := Option.bind_eq_some_iff.mp hrun
        exact ih (hs.step hc hu) hrest
      · cases hrun

end

end Runs
