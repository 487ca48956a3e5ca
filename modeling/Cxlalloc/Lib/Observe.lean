/-
What a run shows on the side.

Some accesses of a program leave the state alone and only report something: a counter, a
line of output.  `observe` runs a program and collects what its accesses show, in order.
`wpo` is the weakest precondition of such a run; it is `wp` with a postcondition that also
sees the reports.  A program that shows nothing is reasoned about with `wp` alone, so only
the code that reports needs the rules below.
-/
import Cxlalloc.Lib.Prog

namespace Lib.Prog

variable {F : Type → Type 1} {α β σ ε O : Type}

/-- Run a program and collect what `obs` says each access shows. -/
def observe (h : Handler F σ ε) (obs : ∀ β : Type, F β → List O) :
    Prog F α → σ → Except ε (α × σ × List O)
  | ret a, s => .ok (a, s, [])
  | step act k, s =>
    match h _ act s with
    | .ok (b, s') =>
      match observe h obs (k b) s' with
      | .ok (a, s'', os) => .ok (a, s'', obs _ act ++ os)
      | .error e => .error e
    | .error e => .error e

/-- The run from `s` returns with `Q`, which sees the reports, or fails with `E`. -/
def wpo (h : Handler F σ ε) (obs : ∀ β : Type, F β → List O) (p : Prog F α)
    (Q : α → σ → List O → Prop) (E : ε → Prop) (s : σ) : Prop :=
  match observe h obs p s with
  | .ok (a, s', os) => Q a s' os
  | .error e => E e

/-- Shows nothing. -/
def Quiet (obs : ∀ β : Type, F β → List O) (β : Type) (act : F β) : Prop :=
  obs β act = []

variable {h : Handler F σ ε} {obs : ∀ β : Type, F β → List O} {E E' : ε → Prop} {s : σ}
  {Q Q' : α → σ → List O → Prop}

@[simp] theorem wpo_pure (a : α) : wpo h obs (pure a : Prog F α) Q E s ↔ Q a s [] := Iff.rfl

theorem wpo_step {act : F β} {k : β → Prog F α} :
    wpo h obs (step act k) Q E s ↔
      match h _ act s with
      | .ok (b, s') => wpo h obs (k b) (fun a s'' os => Q a s'' (obs _ act ++ os)) E s'
      | .error e => E e := by
  unfold wpo
  rw [observe]
  cases h β act s with
  | error e => rfl
  | ok r =>
    obtain ⟨b, s'⟩ := r
    dsimp only
    cases observe h obs (k b) s' with
    | ok r => rfl
    | error e => rfl

/-- The reports of a sequence are those of its parts, one after the other. -/
theorem wpo_bind (p : Prog F β) (f : β → Prog F α) :
    wpo h obs (p >>= f) Q E s ↔
      wpo h obs p (fun b s' os => wpo h obs (f b) (fun a s'' os' => Q a s'' (os ++ os')) E s')
        E s := by
  show wpo h obs (p.bind f) Q E s ↔ _
  induction p generalizing s Q with
  | ret b => exact Iff.rfl
  | step act k ih =>
    rw [bind, wpo_step, wpo_step]
    cases h _ act s with
    | error e => exact Iff.rfl
    | ok r =>
      show wpo h obs ((k r.1).bind f) _ E r.2 ↔ _
      rw [ih]
      simp only [List.append_assoc]

variable {p : Prog F α}

/-- What holds whatever is shown is what `wp` says. -/
theorem wpo_iff_wp {Q : α → σ → Prop} : wpo h obs p (fun a s' _ => Q a s') E s ↔ wp h p Q E s := by
  induction p generalizing s with
  | ret a => exact Iff.rfl
  | step act k ih =>
    rw [wpo_step, wp_step]
    cases h _ act s with
    | error e => exact Iff.rfl
    | ok r => exact ih r.1

/-- A program that shows nothing. -/
theorem wpo_of_quiet (hp : p.Only (Quiet obs)) :
    wpo h obs p Q E s ↔ wp h p (fun a s' => Q a s' []) E s := by
  induction p generalizing s with
  | ret a => exact Iff.rfl
  | step act k ih =>
    rw [wpo_step, wp_step, hp.1]
    cases h _ act s with
    | error e => exact Iff.rfl
    | ok r => exact ih r.1 (hp.2 r.1)

/-- A first part that shows nothing. -/
theorem wpo_bind_of_quiet {p : Prog F β} {f : β → Prog F α} (hp : p.Only (Quiet obs)) :
    wpo h obs (p >>= f) Q E s ↔ wp h p (fun b s' => wpo h obs (f b) Q E s') E s := by
  rw [wpo_bind, wpo_of_quiet hp]
  simp only [List.nil_append]

variable {os : List O}

/-- An access that only reports. -/
theorem wpo_bind_report {act : F Unit} {f : Unit → Prog F α}
    (hact : h _ act s = .ok ((), s)) (hobs : obs _ act = os) :
    wpo h obs (lift act >>= f) Q E s ↔
      wpo h obs (f ()) (fun a s' os' => Q a s' (os ++ os')) E s := by
  show wpo h obs (step act fun b => (ret b).bind f) Q E s ↔ _
  rw [wpo_step, hact, hobs]
  rfl

@[simp] theorem wpo_ite {c : Prop} [Decidable c] (p q : Prog F α) :
    wpo h obs (if c then p else q) Q E s ↔
      if c then wpo h obs p Q E s else wpo h obs q Q E s := by
  by_cases hc : c
  · rw [if_pos hc, if_pos hc]
  · rw [if_neg hc, if_neg hc]

/-- What a run that returned has shown. -/
theorem wpo_ok {a : α} {s' : σ} (hp : wpo h obs p Q E s)
    (hx : observe h obs p s = .ok (a, s', os)) : Q a s' os := by
  unfold wpo at hp
  rw [hx] at hp
  exact hp

/-- A run does not depend on what is shown. -/
theorem exec_of_observe {a : α} {s' : σ}
    (hx : observe h obs p s = .ok (a, s', os)) : exec h p s = .ok (a, s') := by
  have hrun : wpo h obs p (fun b t _ => b = a ∧ t = s') (fun _ => False) s := by
    unfold wpo
    rw [hx]
    exact ⟨rfl, rfl⟩
  obtain ⟨b, t, hb, rfl, rfl⟩ := wp_returns (wpo_iff_wp.mp hrun)
  exact hb

end Lib.Prog
