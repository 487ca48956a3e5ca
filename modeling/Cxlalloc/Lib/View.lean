/-
Following one thread of a pool with a view of its own.

What a thread knows of a shared memory is a copy of the part that only it writes, and of what
it has read elsewhere.  As long as that copy is all it acts on, its programs can be followed one
access after the other without the other threads: an access needs something of the view, and
leads to an answer and to another view.  `Local` says this for the accesses, and `follow` for
programs.

`keeps_of_follow` is the bridge.  If the others keep the view as it is, and every access does to
the memory what it does to the view, then a thread that can be followed keeps the protocol.
`wpc_of_follow` is the same for a thread that may stop anywhere; `noting` adds what has to hold
there, and a note of what the thread has done.
-/
import Cxlalloc.Lib.Crash
import Cxlalloc.Lib.Pool

namespace Lib

variable {T : Type} {F G : Type → Type 1} {σ ε α β V N : Type}

/-- What an access needs of a view, if it is to lead to `Q` whatever it answers. -/
abbrev Local (F : Type → Type 1) (V : Type) : Type 1 :=
  ∀ β : Type, F β → (β → V → Prop) → V → Prop

/-- What is enough for `Q` is enough for what follows from `Q`. -/
def Local.Monotone (pre : Local F V) : Prop :=
  ∀ (β : Type) (act : F β) (Q Q' : β → V → Prop) (v : V), (∀ b v', Q b v' → Q' b v') →
    pre β act Q v → pre β act Q' v

/-- The same with a note that goes along, and `C` before every access. -/
def Local.noting (pre : Local F V) (note : ∀ β : Type, F β → β → N → N) (C : V × N → Prop) :
    Local F (V × N) :=
  fun β act Q x => C x ∧ pre β act (fun b v => Q b (v, note β act b x.2)) x.1

theorem Local.Monotone.noting {pre : Local F V} {note : ∀ β : Type, F β → β → N → N}
    {C : V × N → Prop} (hpre : pre.Monotone) : (pre.noting note C).Monotone :=
  fun β act _ _ x hQ h => ⟨h.1, hpre β act _ _ x.1 (fun b v => hQ b (v, _)) h.2⟩

variable {p : Prog F α}

namespace Prog

variable {pre : Local F V} {Q Q' : α → V → Prop} {v : V}

/-- What a program needs of a view, if it is to return with `Q`. -/
def follow (pre : Local F V) : Prog F α → (α → V → Prop) → V → Prop
  | ret a, Q, v => Q a v
  | step act k, Q, v => pre _ act (fun b => (k b).follow pre Q) v

@[simp] theorem follow_pure (a : α) : (pure a : Prog F α).follow pre Q v ↔ Q a v := Iff.rfl

/-- One access, and then the rest. -/
theorem follow_access {act : F β} {k : β → Prog F α} :
    (lift act >>= k).follow pre Q v ↔ pre β act (fun b => (k b).follow pre Q) v := Iff.rfl

@[simp] theorem follow_bind (p : Prog F β) (f : β → Prog F α) :
    (p >>= f).follow pre Q v ↔ p.follow pre (fun b => (f b).follow pre Q) v := by
  have h : (p.bind f).follow pre Q = p.follow pre fun b => (f b).follow pre Q := by
    induction p with
    | ret b => rfl
    | step act k ih => exact funext fun v => congrFun (congrArg (pre _ act) (funext ih)) v
  exact iff_of_eq (congrFun h v)

@[simp] theorem follow_ite {c : Prop} [Decidable c] (p q : Prog F α) :
    (if c then p else q).follow pre Q v ↔
      if c then p.follow pre Q v else q.follow pre Q v := by
  by_cases hc : c
  · rw [if_pos hc, if_pos hc]
  · rw [if_neg hc, if_neg hc]

/-- Other accesses, of which each stands for one. -/
theorem follow_hoist {pre : Local G V} {f : ∀ β : Type, F β → G β} (p : Prog F α) :
    (p.hoist f).follow pre Q v ↔ p.follow (fun β act => pre β (f β act)) Q v := by
  have h : (p.hoist f).follow pre Q = p.follow (fun β act => pre β (f β act)) Q := by
    induction p with
    | ret a => rfl
    | step act k ih => exact funext fun v => congrFun (congrArg (pre _ (f _ act)) (funext ih)) v
  exact iff_of_eq (congrFun h v)

theorem follow_mono (hpre : pre.Monotone) (hp : p.follow pre Q v)
    (hQ : ∀ a v', Q a v' → Q' a v') : p.follow pre Q' v := by
  induction p generalizing v with
  | ret a => exact hQ a v hp
  | step act k ih => exact hpre _ act _ _ v (fun b v' hb => ih b hb) hp

/-- A program all of whose accesses keep a note of which `C` follows. -/
theorem follow_noting {note : ∀ β : Type, F β → β → N → N} {C : V × N → Prop} {K : N → Prop}
    {A : ∀ β : Type, F β → Prop} {n : N} (hpre : pre.Monotone)
    (hK : ∀ β (act : F β) b n, A β act → K n → K (note β act b n)) (hC : ∀ v n, K n → C (v, n))
    (hA : p.Only A) (hp : p.follow pre Q v) (hn : K n) :
    p.follow (pre.noting note C) (fun a x => Q a x.1 ∧ K x.2) (v, n) := by
  induction p generalizing v n with
  | ret a => exact ⟨hp, hn⟩
  | step act k ih =>
    exact ⟨hC v n hn, hpre _ act _ _ v
      (fun b v' hb => ih b (hA.2 b) hb (hK _ act b n hA.1 hn)) hp⟩

/-- A thread that can be followed may stop anywhere. -/
theorem wpc_of_follow {σ : Type*} {h : Handler F σ ε} {R : σ → σ → Prop} {E : ε → Prop}
    {Own : V → σ → Prop} {C : V → Prop} {s : σ} (hstable : ∀ v, Stable R (Own v))
    (hact : ∀ (β : Type) (act : F β) (Q : β → V → Prop) (v : V) (s : σ), pre β act Q v → Own v s →
      C v ∧ (∀ b s', h β act s = .ok (b, s') → ∃ v', Q b v' ∧ Own v' s') ∧
        ∀ e, h β act s = .error e → E e)
    (hQ : ∀ a v, Q a v → C v) (hp : p.follow pre Q v) (hs : Own v s) :
    wpc h R p (fun a s => ∃ v, Q a v ∧ Own v s) (fun s => ∃ v, C v ∧ Own v s) E s := by
  induction p generalizing v s with
  | ret a =>
    intro s' hR
    have hs' := hstable v s s' hR hs
    exact ⟨⟨v, hQ a v hp, hs'⟩, v, hp, hs'⟩
  | step act k ih =>
    intro s' hR
    have hs' := hstable v s s' hR hs
    obtain ⟨hC, hok, herror⟩ := hact _ act _ v s' hp hs'
    refine ⟨⟨v, hC, hs'⟩, ?_⟩
    split
    · rename_i b s'' hb
      obtain ⟨v', hk, hs''⟩ := hok b s'' hb
      exact ih b hk hs''
    · rename_i e he
      exact herror e he

end Prog

namespace Protocol

variable {S : System T F σ ε} {g : Guard T F σ} {P : Protocol S g} {t : T} {pre : Local F V}
  {Q : α → V → Prop} {v : V} {s : σ}

/-- A thread that can be followed with what it owns keeps the protocol. -/
theorem keeps_of_follow {Own : V → σ → Prop} (hstable : ∀ v, P.Stable t (Own v))
    (hact : ∀ (β : Type) (act : F β) (Q : β → V → Prop) (v : V), pre β act Q v →
      P.Does t (Own v) act fun b s => ∃ v', Q b v' ∧ Own v' s)
    (hp : p.follow pre Q v) (hs : Own v s) :
    P.Keeps t p (fun a s => ∃ v', Q a v' ∧ Own v' s) s := by
  induction p generalizing v s with
  | ret a => exact fun s' hI hR => ⟨v, hp, hstable v s s' hI hR hs⟩
  | step act k ih =>
    intro s' hI hR
    obtain ⟨hneeds, hstep⟩ := hact _ act _ v hp s' hI (hstable v s s' hI hR hs)
    refine ⟨hneeds, fun hg b s'' hb => ?_⟩
    obtain ⟨hI'', hG, v', hk, hs''⟩ := hstep hg b s'' hb
    exact ⟨hI'', hG, ih b hk hs''⟩

end Protocol

end Lib
