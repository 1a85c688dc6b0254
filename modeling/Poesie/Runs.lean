import Mathlib.Tactic

set_option autoImplicit false

/-! # Runs of a state machine

A run is the list of events of a machine with a step function. `Always` says that a property
holds in every state a run reaches, the first and the last included, and `Along` that every
event meets a condition in the state it happens in. `always_iff_along` relates the two: an
invariant is kept by the steps that meet the condition, and any other step breaks the
property.
-/

namespace Runs

variable {σ ε : Type} {step : σ → ε → σ} {P I : σ → Prop} {A C : σ → ε → Prop}

/-- The state after a list of events. -/
def run (step : σ → ε → σ) (s : σ) (events : List ε) : σ := events.foldl step s

/-- Every state reached has the property. -/
def Always (step : σ → ε → σ) (P : σ → Prop) (s : σ) (events : List ε) : Prop :=
  ∀ before after, events = before ++ after → P (run step s before)

/-- Every event meets the condition, in the state before it. -/
def Along (step : σ → ε → σ) (C : σ → ε → Prop) : σ → List ε → Prop
  | _, [] => True
  | s, e :: events => C s e ∧ Along step C (step s e) events

@[simp] theorem always_nil (s : σ) : Always step P s [] ↔ P s := by
  constructor
  · intro h
    exact h [] [] rfl
  · intro h before after hsplit
    rw [(List.append_eq_nil_iff.mp hsplit.symm).1]
    exact h

/-- A run has the property throughout if its first state has and the rest of the run does. -/
theorem always_cons (s : σ) (e : ε) (events : List ε) :
    Always step P s (e :: events) ↔ P s ∧ Always step P (step s e) events := by
  constructor
  · intro h
    refine ⟨h [] (e :: events) rfl, fun before after hsplit => ?_⟩
    exact h (e :: before) after (by rw [hsplit, List.cons_append])
  · rintro ⟨hs, hrest⟩ before after hsplit
    cases before with
    | nil => exact hs
    | cons e' before =>
        cases hsplit
        exact hrest before after rfl

theorem Always.head {s : σ} {events : List ε} (h : Always step P s events) : P s := by
  cases events with
  | nil => exact (always_nil s).mp h
  | cons e events => exact ((always_cons s e events).mp h).1

/-- The run rule: an invariant that each step keeps holds throughout. -/
theorem always_of_along (hkeep : ∀ s e, I s → C s e → I (step s e)) {s : σ} (h : I s)
    {events : List ε} (hC : Along step C s events) : Always step I s events := by
  induction events generalizing s with
  | nil => exact (always_nil s).mpr h
  | cons e events ih =>
      rw [always_cons]
      exact ⟨h, ih (hkeep s e h hC.1) hC.2⟩

theorem Always.mono (hIP : ∀ s, I s → P s) {s : σ} {events : List ε}
    (h : Always step I s events) : Always step P s events :=
  fun before after hsplit => hIP _ (h before after hsplit)

/-- In runs whose events meet `A`, a property holds throughout exactly if all events meet `C`:
`C` keeps the invariant, and an event against `C` breaks the property at once. -/
theorem always_iff_along (hIP : ∀ s, I s → P s)
    (hkeep : ∀ s e, I s → A s e → C s e → I (step s e))
    (hbreak : ∀ s e, I s → A s e → ¬ C s e → ¬ P (step s e))
    {s : σ} (h : I s) {events : List ε} (hA : Along step A s events) :
    Always step P s events ↔ Along step C s events := by
  induction events generalizing s with
  | nil => exact iff_of_true ((always_nil s).mpr (hIP s h)) trivial
  | cons e events ih =>
      rw [always_cons]
      by_cases hC : C s e
      · have hrest := ih (hkeep s e h hA.1 hC) hA.2
        constructor
        · rintro ⟨-, halways⟩
          exact ⟨hC, hrest.mp halways⟩
        · rintro ⟨-, halong⟩
          exact ⟨hIP s h, hrest.mpr halong⟩
      · constructor
        · rintro ⟨-, halways⟩
          exact absurd halways.head (hbreak s e h hA.1 hC)
        · rintro ⟨hCe, -⟩
          exact absurd hCe hC

/-- Two conditions that agree wherever an invariant holds agree on whole runs, if the invariant
is kept by the events that meet the second. -/
theorem along_iff {D : σ → ε → Prop} (hiff : ∀ s e, I s → (C s e ↔ D s e))
    (hkeep : ∀ s e, I s → D s e → I (step s e)) {s : σ} (h : I s) {events : List ε} :
    Along step C s events ↔ Along step D s events := by
  induction events generalizing s with
  | nil => exact Iff.rfl
  | cons e events ih =>
      have hhead := hiff s e h
      constructor
      · rintro ⟨hC, hrest⟩
        have hD := hhead.mp hC
        exact ⟨hD, (ih (hkeep s e h hD)).mp hrest⟩
      · rintro ⟨hD, hrest⟩
        exact ⟨hhead.mpr hD, (ih (hkeep s e h hD)).mpr hrest⟩

/-- A condition on the events alone. -/
theorem along_of_events {p : ε → Prop} {s : σ} {events : List ε} :
    Along step (fun _ e => p e) s events ↔ ∀ e ∈ events, p e := by
  induction events generalizing s with
  | nil => simp [Along]
  | cons e events ih => simp [Along, ih]

end Runs
