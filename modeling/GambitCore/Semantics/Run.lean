import Mathlib.Data.List.Basic

/-!
# Machines with events

A deterministic machine that emits a list of events at each step, its runs over lists of
actions, and the rule that carries an invariant of state and history along a run. A run can
be *guarded*: a condition on state and action that holds at each step.

## Main definitions

* `Machine.run` — the last state and all events
* `Machine.Guarded` — the condition holds at each step of the run
* `Machine.Along` — a property holds in each state of the run

## Main results

* `Machine.run_history` — an invariant of the state and of the events so far
* `Machine.run_invariant` — an invariant of the state, with a property of each event
* `Machine.run_iff`, `Machine.along_iff` — the guard that is equivalent to a property of the last
  state, or of each
* `Machine.run_project` — a run of a larger machine projects to one of a smaller machine
* `Machine.run_related` — related machines agree in their events
-/

/-- A machine: a step takes a state and an action to the next state and the events. -/
structure Machine (σ α ω : Type*) where
  step : σ → α → σ × List ω

namespace Machine

variable {σ α ω : Type*} (M : Machine σ α ω)

/-- The last state of a run, and its events in order. -/
def run (s : σ) : List α → σ × List ω
  | [] => (s, [])
  | a :: as =>
    let (s₁, events) := M.step s a
    let (s₂, later) := run s₁ as
    (s₂, events ++ later)

/-- The guard holds at each step of the run. -/
def Guarded (guard : σ → α → Prop) (s : σ) : List α → Prop
  | [] => True
  | a :: as => guard s a ∧ Guarded guard (M.step s a).1 as

/-- `P` holds in each state of the run, the first and the last included. -/
def Along (P : σ → Prop) (s : σ) : List α → Prop
  | [] => P s
  | a :: as => P s ∧ Along P (M.step s a).1 as

@[simp] theorem run_nil (s : σ) : M.run s [] = (s, []) := rfl

theorem run_cons (s : σ) (a : α) (as : List α) :
    M.run s (a :: as) =
      ((M.run (M.step s a).1 as).1, (M.step s a).2 ++ (M.run (M.step s a).1 as).2) := rfl

theorem run_append (s : σ) (as bs : List α) :
    M.run s (as ++ bs) =
      ((M.run (M.run s as).1 bs).1, (M.run s as).2 ++ (M.run (M.run s as).1 bs).2) := by
  induction as generalizing s with
  | nil => simp
  | cons a as ih => simp only [List.cons_append, run_cons, ih, List.append_assoc]

theorem guarded_of_forall {guard : σ → α → Prop} (h : ∀ s a, guard s a) (s : σ) (as : List α) :
    M.Guarded guard s as := by
  induction as generalizing s with
  | nil => trivial
  | cons a as ih => exact ⟨h s a, ih _⟩

/-- A guard on the actions alone. -/
theorem guarded_of_forall_mem {P : α → Prop} {as : List α} (h : ∀ a ∈ as, P a) (s : σ) :
    M.Guarded (fun _ a => P a) s as := by
  induction as generalizing s with
  | nil => trivial
  | cons a as ih =>
    exact ⟨h a List.mem_cons_self, ih (fun b hb => h b (List.mem_cons_of_mem _ hb)) _⟩

variable {M} {guard : σ → α → Prop}

/-- An invariant of the state and of the events so far. -/
theorem run_history (Inv : σ → List ω → Prop)
    (hstep : ∀ s history a, Inv s history → guard s a →
      Inv (M.step s a).1 (history ++ (M.step s a).2))
    {s : σ} {history : List ω} {as : List α} (hs : Inv s history) (hguard : M.Guarded guard s as) :
    Inv (M.run s as).1 (history ++ (M.run s as).2) := by
  induction as generalizing s history with
  | nil => simpa using hs
  | cons a as ih =>
    -- The history grows at its end, so the induction is over all histories.
    have hrest := ih (hstep s history a hs hguard.1) hguard.2
    rw [List.append_assoc] at hrest
    exact hrest

/-- An invariant of the state, with a property of each event. -/
theorem run_invariant (Inv : σ → Prop) (Good : ω → Prop)
    (hstep : ∀ s a, Inv s → guard s a → Inv (M.step s a).1 ∧ ∀ e ∈ (M.step s a).2, Good e)
    {s : σ} {as : List α} (hs : Inv s) (hguard : M.Guarded guard s as) :
    Inv (M.run s as).1 ∧ ∀ e ∈ (M.run s as).2, Good e := by
  have hstart : Inv s ∧ ∀ e ∈ ([] : List ω), Good e := ⟨hs, by simp⟩
  have hrun := run_history (fun s history => Inv s ∧ ∀ e ∈ history, Good e)
    (fun s history a hinv hg => by
      obtain ⟨hnext, hevents⟩ := hstep s a hinv.1 hg
      refine ⟨hnext, fun e he => ?_⟩
      rcases List.mem_append.mp he with hold | hnew
      · exact hinv.2 e hold
      · exact hevents e hnew)
    hstart hguard
  simpa using hrun

/-- An invariant that every step keeps. -/
theorem run_preserves (Inv : σ → Prop) (hstep : ∀ s a, Inv s → Inv (M.step s a).1) {s : σ}
    (hs : Inv s) (as : List α) : Inv (M.run s as).1 := by
  induction as generalizing s with
  | nil => exact hs
  | cons a as ih => exact ih (hstep s a hs)

variable {cond : σ → α → Prop}

/-- A guard that follows from another one in the states of an invariant. -/
theorem Guarded.of_invariant (Inv : σ → Prop)
    (hstep : ∀ s a, Inv s → cond s a → Inv (M.step s a).1 ∧ guard s a)
    {s : σ} {as : List α} (hs : Inv s) (hcond : M.Guarded cond s as) : M.Guarded guard s as := by
  induction as generalizing s with
  | nil => trivial
  | cons a as ih =>
    obtain ⟨hnext, hguard⟩ := hstep s a hs hcond.1
    exact ⟨hguard, ih hnext hcond.2⟩

/-- A property that a step keeps exactly under a guard holds after a run exactly when the guard
holds at each of its steps. -/
theorem run_iff (P : σ → Prop)
    (hstep : ∀ s a, cond s a → (P (M.step s a).1 ↔ P s ∧ guard s a))
    {s : σ} {as : List α} (hcond : M.Guarded cond s as) :
    P (M.run s as).1 ↔ P s ∧ M.Guarded guard s as := by
  induction as generalizing s with
  | nil => simp [Guarded]
  | cons a as ih => rw [run_cons, ih hcond.2, hstep s a hcond.1, Guarded, and_assoc]

theorem Along.head {P : σ → Prop} {s : σ} {as : List α} (h : M.Along P s as) : P s := by
  cases as with
  | nil => exact h
  | cons a as => exact h.1

/-- The same for a property of each state of the run. Unlike in `run_iff`, a step may also
restore the property, so only steps from states that have it are looked at. -/
theorem along_iff (P : σ → Prop)
    (hstep : ∀ s a, cond s a → P s → (P (M.step s a).1 ↔ guard s a))
    {s : σ} {as : List α} (hs : P s) (hcond : M.Guarded cond s as) :
    M.Along P s as ↔ M.Guarded guard s as := by
  induction as generalizing s with
  | nil => exact iff_of_true hs trivial
  | cons a as ih =>
    have hfirst := hstep s a hcond.1 hs
    rw [Along, Guarded, and_iff_right hs, ← hfirst]
    by_cases hnext : P (M.step s a).1
    · rw [ih hnext hcond.2, and_iff_right hnext]
    · exact iff_of_false (fun halong => hnext halong.head) fun hguard => hnext hguard.1

/-- A projection under which each step of a machine is a step of another one, or nothing, takes its
runs to runs of the other. -/
theorem run_project {τ β ω' : Type*} {N : Machine τ β ω'} (π : σ → τ) (f : α → Option β)
    (Inv : σ → Prop)
    (hstep : ∀ s a, Inv s → guard s a → Inv (M.step s a).1 ∧
      (∀ b, f a = some b → π (M.step s a).1 = (N.step (π s) b).1) ∧
      (f a = none → π (M.step s a).1 = π s))
    {s : σ} {as : List α} (hs : Inv s) (hguard : M.Guarded guard s as) :
    π (M.run s as).1 = (N.run (π s) (as.filterMap f)).1 := by
  induction as generalizing s with
  | nil => rfl
  | cons a as ih =>
    obtain ⟨hnext, hsome, hnone⟩ := hstep s a hs hguard.1
    have hrest := ih hnext hguard.2
    cases hfa : f a with
    | none =>
      rw [List.filterMap_cons_none hfa, ← hnone hfa]
      exact hrest
    | some b =>
      rw [hsome b hfa] at hrest
      rw [List.filterMap_cons_some hfa]
      exact hrest

/-- Two machines that stay related, and agree at each step in their events, agree in the events of
their runs. -/
theorem run_related {τ : Type*} {N : Machine τ α ω} (R : σ → τ → Prop)
    (hstep : ∀ s t a, R s t → R (M.step s a).1 (N.step t a).1 ∧ (M.step s a).2 = (N.step t a).2)
    {s : σ} {t : τ} (h : R s t) (as : List α) : (M.run s as).2 = (N.run t as).2 := by
  induction as generalizing s t with
  | nil => rfl
  | cons a as ih =>
    obtain ⟨hnext, hevents⟩ := hstep s t a h
    rw [run_cons, run_cons, hevents, ih hnext]

end Machine
