import Mathlib.Data.Option.Basic

/-
  Schedules. Each job is a step function `σ → α → Option σ` (`Cluster.step`,
  `Cluster.boundedStep`, `RingSetup.step`), and its reachable states are what steps from the
  launch state lead to. A schedule, a list of actions taken one after another as long as each
  can be taken, runs as `List.foldlM` in `Option`. A property that every step keeps holds at the
  end of every schedule run from a state that has it (`foldlM_getD_of_step`): this is how the
  concrete states of the examples are shown reachable.
-/

namespace Strn

/-- A property kept by every step holds after a schedule of steps, as long as each can be
    taken. -/
theorem foldlM_getD_of_step {σ α : Type} {step : σ → α → Option σ} {P : σ → Prop}
    (hP : ∀ {s s' : σ} (a : α), P s → step s a = some s' → P s') {s : σ} (hs : P s)
    (as : List α) (h : (as.foldlM step s).isSome) : P ((as.foldlM step s).getD s) := by
  induction as generalizing s with
  | nil => exact hs
  | cons a as ih =>
    cases h₁ : step s a with
    | none => simp [h₁] at h
    | some s₁ =>
      simp only [List.foldlM_cons, h₁, Option.bind_eq_bind, Option.some_bind] at h ⊢
      obtain ⟨s', hs'⟩ := Option.isSome_iff_exists.mp h
      simpa [hs'] using ih (hP a hs h₁) h

end Strn
