/-
Programs as sequences of atomic accesses.

A `Prog F α` is a tree: it either returns, or performs one access `act : F β` and
goes on with what the access answered.  The signature `F` says which accesses
there are and what each one answers; it says nothing about what they do.  That is
the handler's part, so one program text can be run over several memories: an
atomic one, one with caches, one that stops between two accesses.

`exec` runs a program without interruption over a deterministic handler.  `wp` is
the weakest precondition of such a run, with one postcondition for a normal return
and one for each way of failing.  Its rules are what the proofs use; `exec` itself
is unfolded only on closed inputs.
-/
import Mathlib.Tactic.TypeStar
import Mathlib.Logic.Basic

namespace Lib

/-- A program over the accesses of `F`. -/
inductive Prog (F : Type → Type 1) (α : Type) : Type 1
  | ret (a : α) : Prog F α
  | step {β : Type} (act : F β) (k : β → Prog F α) : Prog F α

namespace Prog

universe u

variable {F : Type → Type 1} {α β ε : Type} {σ : Type u}

/-- Run one program and go on with its result. -/
def bind : Prog F α → (α → Prog F β) → Prog F β
  | ret a, f => f a
  | step act k, f => step act fun b => (k b).bind f

instance : Monad (Prog F) where
  pure := ret
  bind := bind

/-- The program that performs one access. -/
def lift (act : F α) : Prog F α :=
  step act ret

/-- The same program over other accesses. -/
def hoist {G : Type → Type 1} (f : ∀ β : Type, F β → G β) : Prog F α → Prog G α
  | ret a => ret a
  | step act k => step (f _ act) fun b => (k b).hoist f

/-- What each access does to a state, and how it may fail. -/
abbrev Handler (F : Type → Type 1) (σ : Type u) (ε : Type) : Type (max 1 u) :=
  ∀ β : Type, F β → σ → Except ε (β × σ)

/-- Run a program to its end, one access after the other. -/
def exec (h : Handler F σ ε) : Prog F α → σ → Except ε (α × σ)
  | ret a, s => .ok (a, s)
  | step act k, s =>
    match h _ act s with
    | .ok (b, s') => exec h (k b) s'
    | .error e => .error e

/-- The run from `s` returns with `Q`, or fails with `E`. -/
def wp (h : Handler F σ ε) (p : Prog F α) (Q : α → σ → Prop) (E : ε → Prop) (s : σ) : Prop :=
  match exec h p s with
  | .ok (a, s') => Q a s'
  | .error e => E e

variable {h : Handler F σ ε} {Q Q' : α → σ → Prop} {E E' : ε → Prop} {s : σ}

/-! ### The rules -/

@[simp] theorem wp_pure (a : α) : wp h (pure a : Prog F α) Q E s ↔ Q a s := Iff.rfl

theorem wp_step {act : F β} {k : β → Prog F α} :
    wp h (step act k) Q E s ↔
      match h _ act s with
      | .ok (b, s') => wp h (k b) Q E s'
      | .error e => E e := by
  unfold wp
  rw [exec]
  cases h β act s with
  | ok r => rfl
  | error e => rfl

@[simp] theorem wp_bind (p : Prog F β) (f : β → Prog F α) :
    wp h (p >>= f) Q E s ↔ wp h p (fun b s' => wp h (f b) Q E s') E s := by
  show wp h (p.bind f) Q E s ↔ _
  induction p generalizing s with
  | ret b => exact Iff.rfl
  | step act k ih =>
    rw [bind, wp_step, wp_step]
    cases h _ act s with
    | ok r => exact ih r.1
    | error e => exact Iff.rfl

theorem wp_lift (act : F α) :
    wp h (lift act) Q E s ↔
      match h _ act s with
      | .ok (a, s') => Q a s'
      | .error e => E e := by
  rw [lift, wp_step]
  cases h α act s with
  | ok r => exact Iff.rfl
  | error e => exact Iff.rfl

@[simp] theorem wp_ite {c : Prop} [Decidable c] (p q : Prog F α) :
    wp h (if c then p else q) Q E s ↔ if c then wp h p Q E s else wp h q Q E s := by
  by_cases hc : c
  · rw [if_pos hc, if_pos hc]
  · rw [if_neg hc, if_neg hc]

variable {p : Prog F α}

/-- The rule of consequence. -/
theorem wp_mono (hp : wp h p Q E s) (hQ : ∀ a s', Q a s' → Q' a s')
    (hE : ∀ e, E e → E' e) : wp h p Q' E' s := by
  unfold wp at hp ⊢
  cases hx : exec h p s with
  | ok r => rw [hx] at hp; exact hQ r.1 r.2 hp
  | error e => rw [hx] at hp; exact hE e hp

variable {s' : σ} {a : α}

/-- A run that returned did so with the postcondition. -/
theorem wp_ok (hp : wp h p Q E s) (hx : exec h p s = .ok (a, s')) : Q a s' := by
  unfold wp at hp
  rw [hx] at hp
  exact hp

/-- A run that failed did so for one of the admitted reasons. -/
theorem wp_error {e : ε} (hp : wp h p Q E s) (hx : exec h p s = .error e) : E e := by
  unfold wp at hp
  rw [hx] at hp
  exact hp

/-- A run that cannot fail returns. -/
theorem wp_returns (hp : wp h p Q (fun _ => False) s) :
    ∃ a s', exec h p s = .ok (a, s') ∧ Q a s' := by
  unfold wp at hp
  cases hx : exec h p s with
  | ok r => rw [hx] at hp; exact ⟨r.1, r.2, rfl, hp⟩
  | error e => rw [hx] at hp; exact hp.elim

/-- A closed program can be run to see that it returns. -/
theorem wp_toBool : (exec h p s).toBool = true ↔ wp h p (fun _ _ => True) (fun _ => False) s := by
  unfold wp
  cases exec h p s with
  | ok r => exact ⟨fun _ => trivial, fun _ => rfl⟩
  | error e => exact ⟨Bool.false_ne_true.elim, False.elim⟩

/-- What is known of the one result a run has. -/
theorem wp_of_exec (hx : exec h p s = .ok (a, s')) (hQ : Q a s') : wp h p Q E s := by
  unfold wp
  rw [hx]
  exact hQ

/-- A result with `p`, found by running the program. -/
theorem exists_of_ok {γ : Type*} {r : Except ε γ} {p : γ → Prop} [DecidablePred p]
    (h : (r.toOption.any fun x => decide (p x)) = true) : ∃ x, r = .ok x ∧ p x := by
  cases r with
  | ok x => exact ⟨x, rfl, of_decide_eq_true h⟩
  | error e => cases h

variable {f : β → Prog F α}

/-- A run in two parts. -/
theorem exec_bind_ok {p : Prog F β} (hx : exec h (p >>= f) s = .ok (a, s')) :
    ∃ b s₁, exec h p s = .ok (b, s₁) ∧ exec h (f b) s₁ = .ok (a, s') := by
  have hwp : wp h (p >>= f) (fun x y => x = a ∧ y = s') (fun _ => False) s :=
    wp_of_exec hx ⟨rfl, rfl⟩
  rw [wp_bind] at hwp
  obtain ⟨b, s₁, hp, hf⟩ := wp_returns hwp
  obtain ⟨_, _, hrest, rfl, rfl⟩ := wp_returns hf
  exact ⟨b, s₁, hp, hrest⟩

/-- Other accesses, which do the same to a part `f` of another state. -/
theorem wp_hoist {G : Type → Type 1} {τ : Type} {h' : Handler G τ ε} {g : ∀ β : Type, F β → G β}
    {f : τ → σ} {x : τ} (hok : ∀ β (act : F β) x b s', h β act (f x) = .ok (b, s') →
      ∃ x', h' β (g β act) x = .ok (b, x') ∧ f x' = s')
    (herror : ∀ β (act : F β) x e, h β act (f x) = .error e → h' β (g β act) x = .error e)
    (hp : wp h p Q E (f x)) : wp h' (p.hoist g) (fun a x' => Q a (f x')) E x := by
  induction p generalizing x with
  | ret a => exact hp
  | step act k ih =>
    rw [wp_step] at hp
    rw [hoist, wp_step]
    cases hact : h _ act (f x) with
    | ok r =>
      obtain ⟨x', hx', hf⟩ := hok _ act x r.1 r.2 hact
      rw [hact] at hp
      rw [hx']
      exact ih r.1 (hf ▸ hp)
    | error e =>
      rw [hact] at hp
      rw [herror _ act x e hact]
      exact hp

/-! ### The accesses of a program

A program that performs only accesses which keep some part of the state keeps it as a
whole, whatever else it does. -/

/-- Every access the program may perform satisfies `P`. -/
def Only (P : ∀ β : Type, F β → Prop) : Prog F α → Prop
  | ret _ => True
  | step act k => P _ act ∧ ∀ b, (k b).Only P

variable {P : ∀ β : Type, F β → Prop}

theorem Only.pure (a : α) : (pure a : Prog F α).Only P := trivial

theorem Only.lift {act : F α} (hact : P α act) : (lift act).Only P :=
  ⟨hact, fun _ => trivial⟩

theorem Only.bind {p : Prog F β} (hp : p.Only P) (hf : ∀ b, (f b).Only P) : (p >>= f).Only P := by
  show (p.bind f).Only P
  induction p with
  | ret b => exact hf b
  | step act k ih => exact ⟨hp.1, fun b => ih b (hp.2 b)⟩

theorem Only.ite {c : Prop} [Decidable c] {p q : Prog F α} (hp : p.Only P) (hq : q.Only P) :
    (if c then p else q).Only P := by
  split
  · exact hp
  · exact hq

theorem Only.mono {P' : ∀ β : Type, F β → Prop} (hp : p.Only P)
    (h : ∀ β (act : F β), P β act → P' β act) : p.Only P' := by
  induction p with
  | ret a => trivial
  | step act k ih => exact ⟨h _ act hp.1, fun b => ih b (hp.2 b)⟩

theorem Only.hoist {G : Type → Type 1} {f : ∀ β : Type, F β → G β} {P : ∀ β : Type, G β → Prop}
    (hp : p.Only fun β act => P β (f β act)) : (p.hoist f).Only P := by
  induction p with
  | ret a => trivial
  | step act k ih => exact ⟨hp.1, fun b => ih b (hp.2 b)⟩

/-- Every value the program may return satisfies `W`. -/
def Yields (W : α → Prop) : Prog F α → Prop
  | ret a => W a
  | step _ k => ∀ b, (k b).Yields W

variable {W : α → Prop}

theorem Yields.bind {p : Prog F β} (hf : ∀ b, (f b).Yields W) : (p >>= f).Yields W := by
  show (p.bind f).Yields W
  induction p with
  | ret b => exact hf b
  | step act k ih => exact fun b => ih b

theorem Yields.bind_of_yields {V : β → Prop} {p : Prog F β}
    (hV : p.Yields V) (hf : ∀ b, V b → (f b).Yields W) : (p >>= f).Yields W := by
  show (p.bind f).Yields W
  induction p with
  | ret b => exact hf b hV
  | step act k ih => exact fun b => ih b (hV b)

/-- What a run returns is one of the values the program may return. -/
theorem Yields.exec (hW : p.Yields W) (hx : Prog.exec h p s = .ok (a, s')) : W a := by
  induction p generalizing s with
  | ret b =>
    obtain ⟨rfl, -⟩ := Prod.mk.inj (Except.ok.inj hx)
    exact hW
  | step act k ih =>
    rw [Prog.exec] at hx
    split at hx
    · exact ih _ (hW _) hx
    · cases hx

theorem Only.bind_of_yields {W : β → Prop} {p : Prog F β} (hp : p.Only P)
    (hW : p.Yields W) (hf : ∀ b, W b → (f b).Only P) : (p >>= f).Only P := by
  show (p.bind f).Only P
  induction p with
  | ret b => exact hf b hW
  | step act k ih => exact ⟨hp.1, fun b => ih b (hp.2 b) (hW b)⟩

/-- A part of the state that every such access keeps is kept by the run. -/
theorem Only.wp {γ : Type*} {f : σ → γ} (hp : p.Only P)
    (hf : ∀ β (act : F β) s b s', P β act → h β act s = .ok (b, s') → f s' = f s)
    (he : ∀ β (act : F β) s e, P β act → h β act s = .error e → E e) :
    wp h p (fun _ s' => f s' = f s) E s := by
  induction p generalizing s with
  | ret b => exact rfl
  | step act k ih =>
    rw [wp_step]
    cases hact : h _ act s with
    | ok r =>
      refine wp_mono (ih r.1 (hp.2 r.1)) (fun _ _ h => h.trans ?_) fun _ h => h
      exact hf _ act s r.1 r.2 hp.1 hact
    | error e => exact he _ act s e hp.1 hact

theorem Only.exec {γ : Type*} {f : σ → γ} (hp : p.Only P)
    (hf : ∀ β (act : F β) s b s', P β act → h β act s = .ok (b, s') → f s' = f s)
    (hx : exec h p s = .ok (a, s')) : f s' = f s :=
  wp_ok (hp.wp hf fun _ _ _ _ _ _ => trivial) hx

end Prog

end Lib
