/-
Programs that stop half way, among surroundings that go on.

`Stops h R p s s'` says that a run of `p` from `s` can be found stopped in `s'`: after any
number of its accesses, where before each access and before the stop the surroundings may
have changed the state as `R` allows.

`wpc` is the precondition that goes with it.  Next to the postcondition `Q` of a return it
has a crash condition `C`, which holds wherever the run can stop.  A private access, one
that the surroundings neither see nor disturb, is executed as if they were not there
(`wpc_of_commutes`); for any other access the state it meets is arbitrary up to `R`.
-/
import Cxlalloc.Lib.Prog
import Mathlib.Data.Nat.Notation

namespace Lib.Prog

universe u

variable {F : Type → Type 1} {α β ε : Type} {σ : Type u}

instance : LawfulMonad (Prog F) := by
  refine .mk' _ (fun p => ?_) (fun _ _ => rfl) (fun p f g => ?_)
  · show p.bind (fun a => ret a) = p
    induction p with
    | ret a => rfl
    | step act k ih => exact congrArg (step act) (funext ih)
  · show (p.bind f).bind g = p.bind fun a => (f a).bind g
    induction p with
    | ret a => rfl
    | step act k ih => exact congrArg (step act) (funext ih)

/-- A run of the program can be found stopped in the second state. -/
inductive Stops (h : Handler F σ ε) (R : σ → σ → Prop) : Prog F α → σ → σ → Prop
  | stop {p : Prog F α} {s s' : σ} (hR : R s s') : Stops h R p s s'
  | step {β : Type} {act : F β} {k : β → Prog F α} {b : β} {s s₁ s₂ s' : σ} (hR : R s s₁)
      (hact : h β act s₁ = .ok (b, s₂)) (hstop : Stops h R (k b) s₂ s') :
      Stops h R (.step act k) s s'

/-- Stop an undisturbed run after `n` accesses, or where it ends. -/
def stopAt (h : Handler F σ ε) : ℕ → Prog F α → σ → σ
  | 0, _, s => s
  | _ + 1, ret _, s => s
  | n + 1, step act k, s =>
    match h _ act s with
    | .ok (b, s') => stopAt h n (k b) s'
    | .error _ => s

/-- Every run from `s`, disturbed as `R` allows, returns with `Q` or fails with `E`, and
satisfies `C` wherever it can stop. -/
def wpc (h : Handler F σ ε) (R : σ → σ → Prop) :
    Prog F α → (α → σ → Prop) → (σ → Prop) → (ε → Prop) → σ → Prop
  | ret a, Q, C, _, s => ∀ s', R s s' → C s' ∧ Q a s'
  | step act k, Q, C, E, s => ∀ s', R s s' → C s' ∧
      match h _ act s' with
      | .ok (b, s'') => wpc h R (k b) Q C E s''
      | .error e => E e

/-- The surroundings keep `P`. -/
def Stable (R : σ → σ → Prop) (P : σ → Prop) : Prop :=
  ∀ s s', R s s' → P s → P s'

variable {h : Handler F σ ε} {R R' : σ → σ → Prop} {Q Q' : α → σ → Prop} {C C' : σ → Prop}
  {E E' : ε → Prop} {s s' : σ} {p : Prog F α}

theorem stops_stopAt (hrefl : ∀ s, R s s) (n : ℕ) (p : Prog F α) (s : σ) :
    Stops h R p s (stopAt h n p s) := by
  induction n generalizing p s with
  | zero => exact .stop (hrefl s)
  | succ n ih =>
    cases p with
    | ret a => exact .stop (hrefl s)
    | step act k =>
      rw [stopAt]
      split
      · rename_i b s₁ hact
        exact .step (hrefl s) hact (ih (k b) s₁)
      · exact .stop (hrefl s)

/-- Fewer disturbances leave fewer runs. -/
theorem Stops.mono (hR : ∀ s s', R' s s' → R s s') (hs : Stops h R' p s s') : Stops h R p s s' := by
  induction hs with
  | stop h => exact .stop (hR _ _ h)
  | step h hact _ ih => exact .step (hR _ _ h) hact ih

/-! ### The rules -/

/-- Wherever a run can stop, the crash condition holds. -/
theorem wpc_stops (hp : wpc h R p Q C E s) (hs : Stops h R p s s') : C s' := by
  induction hs with
  | @stop p s s' hR =>
    cases p with
    | ret a => exact (hp s' hR).1
    | step act k => exact (hp s' hR).1
  | step hR hact _ ih =>
    have hstep := (hp _ hR).2
    rw [hact] at hstep
    exact ih hstep

theorem wpc_mono (hp : wpc h R p Q C E s) (hR : ∀ s s', R' s s' → R s s')
    (hQ : ∀ a s', Q a s' → Q' a s') (hC : ∀ s', C s' → C' s') (hE : ∀ e, E e → E' e) :
    wpc h R' p Q' C' E' s := by
  induction p generalizing s with
  | ret a => exact fun s' h' => ⟨hC _ (hp s' (hR _ _ h')).1, hQ _ _ (hp s' (hR _ _ h')).2⟩
  | step act k ih =>
    intro s' h'
    obtain ⟨hc, hstep⟩ := hp s' (hR _ _ h')
    refine ⟨hC _ hc, ?_⟩
    split
    · rename_i b s'' hact
      rw [hact] at hstep
      exact ih b hstep
    · rename_i e hact
      rw [hact] at hstep
      exact hE e hstep

/-- The surroundings may stand still. -/
theorem wpc_wp (hrefl : ∀ s, R s s) (hp : wpc h R p Q C E s) : wp h p Q E s := by
  induction p generalizing s with
  | ret a => exact (hp s (hrefl s)).2
  | step act k ih =>
    have hstep := (hp s (hrefl s)).2
    rw [wp_step]
    split
    · rename_i b s' hact
      rw [hact] at hstep
      exact ih b hstep
    · rename_i e hact
      rw [hact] at hstep
      exact hstep

/-- A run that nobody disturbs. -/
theorem wpc_of_wp (hp : wp h p Q E s) : wpc h Eq p Q (fun _ => True) E s := by
  induction p generalizing s with
  | ret a =>
    rintro s' rfl
    exact ⟨trivial, hp⟩
  | step act k ih =>
    rintro s' rfl
    rw [wp_step] at hp
    refine ⟨trivial, ?_⟩
    split
    · rename_i b s' hact
      rw [hact] at hp
      exact ih b hp
    · rename_i e hact
      rw [hact] at hp
      exact hp

section Preorder

variable (hrefl : ∀ s, R s s) (htrans : ∀ s₁ s₂ s₃, R s₁ s₂ → R s₂ s₃ → R s₁ s₃)

include htrans in
/-- The surroundings may act before the program starts. -/
theorem wpc_stable : Stable R (wpc h R p Q C E) := by
  intro s s' hR hp
  cases p with
  | ret a => exact fun s'' h' => hp s'' (htrans _ _ _ hR h')
  | step act k => exact fun s'' h' => hp s'' (htrans _ _ _ hR h')

include hrefl in
theorem wpc_crash (hp : wpc h R p Q C E s) : C s := by
  cases p with
  | ret a => exact (hp s (hrefl s)).1
  | step act k => exact (hp s (hrefl s)).1

theorem wpc_pure {a : α} (hQ : Stable R (Q a)) (hC : Stable R C) (hc : C s) (hq : Q a s) :
    wpc h R (pure a) Q C E s :=
  fun s' hR => ⟨hC s s' hR hc, hQ s s' hR hq⟩

include hrefl htrans in
theorem wpc_bind {p : Prog F β} {f : β → Prog F α} :
    wpc h R (p >>= f) Q C E s ↔ wpc h R p (fun b s' => wpc h R (f b) Q C E s') C E s := by
  show wpc h R (p.bind f) Q C E s ↔ _
  induction p generalizing s with
  | ret b =>
    constructor
    · intro hf s' hR
      have hf' := wpc_stable htrans s s' hR hf
      exact ⟨wpc_crash hrefl hf', hf'⟩
    · exact fun hf => (hf s (hrefl s)).2
  | step act k ih =>
    refine forall₂_congr fun s' _ => and_congr_right fun _ => ?_
    cases h _ act s' with
    | ok r => exact ih r.1
    | error e => exact Iff.rfl

/-- An access that does the same whatever the surroundings did, and after which they can
still be taken to have done it. -/
theorem wpc_of_commutes {act : F β} {k : β → Prog F α} {b : β} {s₁ : σ} (hC : Stable R C)
    (hcomm : ∀ s', R s s' → ∃ s₁', h β act s' = .ok (b, s₁') ∧ R s₁ s₁') (hc : C s)
    (hk : wpc h R (k b) Q C E s₁) (htrans : ∀ s₁ s₂ s₃, R s₁ s₂ → R s₂ s₃ → R s₁ s₃) :
    wpc h R (lift act >>= k) Q C E s := by
  intro s' hR
  obtain ⟨s₁', hact, hR₁⟩ := hcomm s' hR
  refine ⟨hC s s' hR hc, ?_⟩
  rw [hact]
  exact wpc_stable htrans s₁ s₁' hR₁ hk

/-- Any access: it meets a state the surroundings left. -/
theorem wpc_access {act : F β} {k : β → Prog F α}
    (hk : ∀ s', R s s' → C s' ∧
      match h β act s' with
      | .ok (b, s'') => wpc h R (k b) Q C E s''
      | .error e => E e) :
    wpc h R (lift act >>= k) Q C E s := by
  intro s' hR
  obtain ⟨hc, hstep⟩ := hk s' hR
  refine ⟨hc, ?_⟩
  cases hact : h β act s' with
  | ok r => rw [hact] at hstep; exact hstep
  | error e => rw [hact] at hstep; exact hstep

end Preorder

/-- A program whose accesses keep `I`. -/
theorem wpc_of_only {P : ∀ β : Type, F β → Prop} {I : σ → Prop} (hp : p.Only P) (hI : Stable R I)
    (hkeep : ∀ β (act : F β) s b s', P β act → I s → h β act s = .ok (b, s') → I s') (hs : I s) :
    wpc h R p (fun _ s' => I s') I (fun _ => True) s := by
  induction p generalizing s with
  | ret a => exact fun s' hR => ⟨hI s s' hR hs, hI s s' hR hs⟩
  | step act k ih =>
    intro s' hR
    refine ⟨hI s s' hR hs, ?_⟩
    split
    · rename_i b s'' hact
      exact ih b (hp.2 b) (hkeep _ act s' b s'' hp.1 (hI s s' hR hs) hact)
    · exact trivial

/-- Two things hold of the same runs. -/
theorem wpc_and (hp : wpc h R p Q C E s) (hp' : wpc h R p Q' C' E' s) :
    wpc h R p (fun a s' => Q a s' ∧ Q' a s') (fun s' => C s' ∧ C' s') (fun e => E e ∧ E' e) s := by
  induction p generalizing s with
  | ret a => exact fun s' hR => ⟨⟨(hp s' hR).1, (hp' s' hR).1⟩, (hp s' hR).2, (hp' s' hR).2⟩
  | step act k ih =>
    intro s' hR
    obtain ⟨hc, hstep⟩ := hp s' hR
    obtain ⟨hc', hstep'⟩ := hp' s' hR
    refine ⟨⟨hc, hc'⟩, ?_⟩
    split
    · rename_i b s'' hact
      rw [hact] at hstep hstep'
      exact ih b hstep hstep'
    · rename_i e hact
      rw [hact] at hstep hstep'
      exact ⟨hstep, hstep'⟩

/-- Accesses that never fail. -/
theorem wpc_total {P : ∀ β : Type, F β → Prop} (hp : p.Only P)
    (hok : ∀ β (act : F β) s e, P β act → h β act s ≠ .error e) (hs : wpc h R p Q C E s) :
    wpc h R p Q C E' s := by
  induction p generalizing s with
  | ret a => exact hs
  | step act k ih =>
    intro s' hR
    obtain ⟨hc, hstep⟩ := hs s' hR
    refine ⟨hc, ?_⟩
    split
    · rename_i b s'' hact
      rw [hact] at hstep
      exact ih b (hp.2 b) hstep
    · rename_i e hact
      exact absurd hact (hok _ act s' e hp.1)

/-- A program that changes nothing is always in a state the surroundings left. -/
theorem wpc_reads {P : ∀ β : Type, F β → Prop} (hp : p.Only P)
    (hread : ∀ β (act : F β) s b s', P β act → h β act s = .ok (b, s') → s' = s)
    (htrans : ∀ s₁ s₂ s₃, R s₁ s₂ → R s₂ s₃ → R s₁ s₃) (hs : wpc h R p Q C E s) :
    wpc h R p (fun a s' => Q a s' ∧ R s s') (fun s' => C s' ∧ R s s') E s := by
  induction p generalizing s with
  | ret a => exact fun s' hR => ⟨⟨(hs s' hR).1, hR⟩, (hs s' hR).2, hR⟩
  | step act k ih =>
    intro s' hR
    obtain ⟨hc, hstep⟩ := hs s' hR
    refine ⟨⟨hc, hR⟩, ?_⟩
    split
    · rename_i b s'' hact
      rw [hact] at hstep
      obtain rfl := hread _ act s' b s'' hp.1 hact
      exact wpc_mono (ih b (hp.2 b) hstep) (fun _ _ h => h)
        (fun a s₁ h => ⟨h.1, htrans _ _ _ hR h.2⟩) (fun s₁ h => ⟨h.1, htrans _ _ _ hR h.2⟩)
        (fun _ h => h)
    · rename_i e hact
      rw [hact] at hstep
      exact hstep

end Lib.Prog
