/-
Runs that are given by a list of steps.

`List.foldlM` takes the steps one after the other, as long as each of them can be taken, so
a run can be computed.
-/
import Mathlib.Logic.Relation

namespace Lib

open Relation

variable {σ α ε : Type}

/-- A step is taken if it is legal and succeeds. -/
def attempt (legal : σ → α → Prop) [∀ s a, Decidable (legal s a)] (step : σ → α → Except ε σ)
    (s : σ) (a : α) : Option σ :=
  if legal s a then (step s a).toOption else none

theorem of_attempt {legal : σ → α → Prop} [∀ s a, Decidable (legal s a)]
    {step : σ → α → Except ε σ} {s s' : σ} {a : α} (h : attempt legal step s a = some s') :
    legal s a ∧ step s a = .ok s' := by
  unfold attempt at h
  split at h
  · rename_i hlegal
    refine ⟨hlegal, ?_⟩
    cases hstep : step s a with
    | ok s₁ =>
      rw [hstep] at h
      exact congrArg Except.ok (Option.some.inj h)
    | error e =>
      rw [hstep] at h
      cases h
  · cases h

/-- Steps that could be taken are a run. -/
theorem run_of_foldlM {next : σ → α → Option σ} {R : σ → σ → Prop} {as : List α} {s s' : σ}
    (hR : ∀ s a s', next s a = some s' → R s s') (h : as.foldlM next s = some s') :
    ReflTransGen R s s' := by
  induction as generalizing s with
  | nil =>
    obtain rfl := Option.some.inj h
    exact .refl
  | cons a as ih =>
    rw [List.foldlM_cons] at h
    obtain ⟨s₁, hs₁, hrest⟩ := Option.bind_eq_some_iff.mp h
    exact .head (hR s a s₁ hs₁) (ih hrest)

end Lib
