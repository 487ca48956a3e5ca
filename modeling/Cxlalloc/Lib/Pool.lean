/-
Threads that run programs over one memory.

A `System` says which calls a thread may make and when, which program a call runs, and what
an access of that thread does.  A `Pool` is the memory together with what is left of every
thread's program.  A step lets one thread perform its next access, or an idle thread make a
call, so the runs of a pool are all interleavings of the calls, access by access.  A thread
that stops is one that takes no more steps.

A `Protocol` is how such runs are reasoned about one thread at a time: an invariant of the
memory, what a thread may rely on the others not to do, and what it guarantees them in
return.  `Keeps t p Q s` says that the thread, with `p` left to run, keeps the protocol
whatever the others do within it.  `Protocol.run` puts the threads together.

A `Guard` singles out runs: only accesses that meet it are looked at.
-/
import Cxlalloc.Lib.Prog
import Mathlib.Logic.Function.Basic
import Mathlib.Logic.Relation
import Mathlib.Data.Nat.Notation
import Mathlib.Tactic.SplitIfs

namespace Lib

open Function
open Relation

/-- The calls threads of `T` make on a memory `σ`. -/
structure System (T : Type) (F : Type → Type 1) (σ ε : Type) where
  Call : Type 1
  /-- The program of a call. -/
  code : T → Call → Prog F Unit
  /-- When a thread may make a call. -/
  legal : T → Call → σ → Prop
  /-- What making a call does to the ghost part of the memory. -/
  enter : T → Call → σ → σ
  handle : T → Prog.Handler F σ ε

/-- A memory, and what is left of every thread's program. -/
structure Pool (T : Type) (F : Type → Type 1) (σ : Type) where
  mem : σ
  prog : T → Prog F Unit

/-- A condition on the accesses of a run: who performs which in what state. -/
abbrev Guard (T : Type) (F : Type → Type 1) (σ : Type) : Type 1 :=
  T → ∀ β : Type, F β → σ → Prop

/-- The guard that every access meets. -/
def Guard.any {T : Type} {F : Type → Type 1} {σ : Type} : Guard T F σ :=
  fun _ _ _ _ => True

instance {T : Type} {F : Type → Type 1} {σ : Type} (t : T) (β : Type) (act : F β) (s : σ) :
    Decidable ((Guard.any : Guard T F σ) t β act s) :=
  .isTrue trivial

variable {T : Type} {F : Type → Type 1} {σ ε α β : Type} {act : F β}

namespace Pool

/-- Nobody runs anything. -/
def idle (s : σ) : Pool T F σ :=
  { mem := s, prog := fun _ => .ret () }

variable [DecidableEq T]

/-- Thread `t` takes one step. -/
inductive Step (S : System T F σ ε) (g : Guard T F σ) (t : T) : Pool T F σ → Pool T F σ → Prop
  | call {w : Pool T F σ} (c : S.Call) (hidle : w.prog t = .ret ())
      (hlegal : S.legal t c w.mem) :
      Step S g t w { mem := S.enter t c w.mem, prog := update w.prog t (S.code t c) }
  | access {w : Pool T F σ} {β : Type} {act : F β} {k : β → Prog F Unit} {b : β} {s : σ}
      (hprog : w.prog t = .step act k) (hguard : g t β act w.mem)
      (hact : S.handle t β act w.mem = .ok (b, s)) :
      Step S g t w { mem := s, prog := update w.prog t (k b) }

/-- Some thread takes a step. -/
def Steps (S : System T F σ ε) (g : Guard T F σ) (w w' : Pool T F σ) : Prop :=
  ∃ t, Step S g t w w'

/-- Thread `t` is at the end of its call, or at an access that the guard does not admit, or that
fails with one of `E`. -/
def Halts (S : System T F σ ε) (g : Guard T F σ) (t : T) (E : ε → Prop) (w : Pool T F σ) : Prop :=
  w.prog t = .ret () ∨ ∃ (β : Type) (act : F β) (k : β → Prog F Unit), w.prog t = .step act k ∧
    (¬ g t β act w.mem ∨ ∃ e, E e ∧ S.handle t β act w.mem = .error e)

/-- A thread other than `t` takes a step. -/
def Without (S : System T F σ ε) (g : Guard T F σ) (t : T) (w w' : Pool T F σ) : Prop :=
  ∃ u, u ≠ t ∧ Step S g u w w'

variable {S : System T F σ ε} {g : Guard T F σ} {t : T} {w w' : Pool T F σ}

/-- A weaker guard admits more steps. -/
theorem Step.mono {g' : Guard T F σ} (h : Step S g t w w')
    (hg : ∀ t β (act : F β) s, g t β act s → g' t β act s) : Step S g' t w w' := by
  cases h with
  | call c hidle hlegal => exact .call c hidle hlegal
  | access hprog hguard hact => exact .access hprog (hg _ _ _ _ hguard) hact

variable {w₀ : Pool T F σ}

/-- A run that goes on with a call. -/
theorem call_trans (hrun : ReflTransGen (Steps S g) w₀ w) (t : T) (c : S.Call)
    (hidle : w.prog t = .ret ()) (hlegal : S.legal t c w.mem) : ReflTransGen (Steps S g) w₀
      { mem := S.enter t c w.mem, prog := update w.prog t (S.code t c) } :=
  hrun.tail ⟨t, .call c hidle hlegal⟩

/-! ### Scripts

A run that is given by a list of moves can be computed. -/

/-- A thread makes a call, or performs up to `n` accesses of the one it has made. -/
inductive Move (S : System T F σ ε) : Type 1
  | call (t : T) (c : S.Call)
  | go (t : T) (n : ℕ)

section

variable (S g) [∀ t c s, Decidable (S.legal t c s)] [∀ t β act s, Decidable (g t β act s)]

/-- Up to `n` accesses of thread `t`, each of which meets the guard. -/
def go (t : T) : ℕ → Pool T F σ → Option (Pool T F σ)
  | 0, w => some w
  | n + 1, w =>
    match w.prog t with
    | .ret _ => some w
    | .step act k =>
      if g t _ act w.mem then
        match S.handle t _ act w.mem with
        | .ok (b, s) => go t n { mem := s, prog := update w.prog t (k b) }
        | .error _ => none
      else none

/-- One move. -/
def move (w : Pool T F σ) : Move S → Option (Pool T F σ)
  | .call t c =>
    match w.prog t with
    | .ret _ =>
      if S.legal t c w.mem then
        some { mem := S.enter t c w.mem, prog := update w.prog t (S.code t c) }
      else none
    | .step _ _ => none
  | .go t n => go S g t n w

/-- One move after the other. -/
def play : List (Move S) → Pool T F σ → Option (Pool T F σ)
  | [], w => some w
  | m :: ms, w => (move S g w m).bind (play ms)

variable {S g}

omit [∀ t c s, Decidable (S.legal t c s)] in
theorem go_steps {n : ℕ} (hgo : go S g t n w = some w') : ReflTransGen (Step S g t) w w' := by
  induction n generalizing w with
  | zero =>
    obtain rfl := Option.some.inj hgo
    exact .refl
  | succ n ih =>
    rw [go] at hgo
    split at hgo
    · obtain rfl := Option.some.inj hgo
      exact .refl
    · rename_i act k hprog
      split_ifs at hgo with hguard
      split at hgo
      · rename_i b s hact
        exact .head (.access hprog hguard hact) (ih hgo)
      · cases hgo

omit [∀ t c s, Decidable (S.legal t c s)] in
theorem go_one {k : β → Prog F Unit} (hprog : w.prog t = .step act k)
    (hgo : go S g t 1 w = some w') : Step S g t w w' := by
  rw [go, hprog] at hgo
  dsimp only at hgo
  split_ifs at hgo with hguard
  split at hgo
  · rename_i b s hact
    obtain rfl := Option.some.inj hgo
    exact .access hprog hguard hact
  · cases hgo

omit [∀ t c s, Decidable (S.legal t c s)] in
/-- A run that goes on with accesses of one thread. -/
theorem go_trans (hrun : ReflTransGen (Steps S g) w₀ w) (t : T) (n : ℕ)
    (hgo : go S g t n w = some w') : ReflTransGen (Steps S g) w₀ w' :=
  hrun.trans (ReflTransGen.mono (fun _ _ h => ⟨t, h⟩) _ _ (go_steps hgo))

/-- The thread that makes a move. -/
def Move.thread : Move S → T
  | .call t _ => t
  | .go t _ => t

theorem move_steps {m : Move S} (hmove : move S g w m = some w') :
    ReflTransGen (Step S g m.thread) w w' := by
  cases m with
  | call t c =>
    rw [move] at hmove
    split at hmove
    · rename_i hidle
      split_ifs at hmove with hlegal
      obtain rfl := Option.some.inj hmove
      exact .single (.call c hidle hlegal)
    · cases hmove
  | go t n => exact go_steps hmove

variable {ms : List (Move S)}

/-- A script that can be played is a run of the threads in it. -/
theorem play_of {R : Pool T F σ → Pool T F σ → Prop}
    (hR : ∀ m ∈ ms, ∀ w w', Step S g m.thread w w' → R w w') (hplay : play S g ms w = some w') :
    ReflTransGen R w w' := by
  induction ms generalizing w with
  | nil =>
    obtain rfl := Option.some.inj hplay
    exact .refl
  | cons m ms ih =>
    obtain ⟨w₁, hm, hrest⟩ := Option.bind_eq_some_iff.mp hplay
    refine .trans ?_ (ih (fun m' hm' => hR m' (List.mem_cons_of_mem m hm')) hrest)
    exact ReflTransGen.mono (hR m List.mem_cons_self) _ _ (move_steps hm)

theorem play_steps (hplay : play S g ms w = some w') : ReflTransGen (Steps S g) w w' :=
  play_of (fun m _ _ _ h => ⟨m.thread, h⟩) hplay

/-- A run that goes on as a script says. -/
theorem play_trans (hrun : ReflTransGen (Steps S g) w₀ w) (ms : List (Move S))
    (hplay : play S g ms w = some w') : ReflTransGen (Steps S g) w₀ w' :=
  hrun.trans (play_steps hplay)

theorem play_without (hms : ∀ m ∈ ms, m.thread ≠ t)
    (hplay : play S g ms w = some w') : ReflTransGen (Without S g t) w w' :=
  play_of (fun m hm _ _ h => ⟨m.thread, hms m hm, h⟩) hplay

/-- What a script leads to can be checked by playing it. -/
theorem exists_of_play {p : Pool T F σ → Prop} [DecidablePred p]
    (h : ((play S g ms w).any fun w' => p w') = true) :
    ∃ w', ReflTransGen (Steps S g) w w' ∧ p w' := by
  obtain ⟨w', hplay, hp⟩ := (Option.any_eq_true _ _).mp h
  exact ⟨w', play_steps hplay, of_decide_eq_true hp⟩

end

end Pool

/-! ### Rely and guarantee -/

/-- How the threads of a system get along. -/
structure Protocol (S : System T F σ ε) (g : Guard T F σ) where
  /-- What holds of the memory between any two accesses. -/
  inv : σ → Prop
  /-- What the steps of the others do to the memory, as far as `t` cares. -/
  rely : T → σ → σ → Prop
  /-- What a step of `t` does to the memory. -/
  guar : T → σ → σ → Prop
  /-- What `t` has to make sure of before an access. -/
  needs : Guard T F σ
  /-- What `t` leaves behind when a call is done. -/
  rest : T → σ → Prop := fun _ _ => True
  rely_refl : ∀ t s, rely t s s
  rely_trans : ∀ t s s' s'', rely t s s' → rely t s' s'' → rely t s s''
  guar_refl : ∀ t s, guar t s s
  rely_of_guar : ∀ t u s s', t ≠ u → inv s → inv s' → guar u s s' → rely t s s'

namespace Protocol

variable {S : System T F σ ε} {g : Guard T F σ} (P : Protocol S g) {t : T}
  {Q Q' : α → σ → Prop} {s s' : σ}

/-- Thread `t` keeps the protocol as long as it has `p` to run, and returns with `Q`. -/
def Keeps (t : T) : Prog F α → (α → σ → Prop) → σ → Prop
  | .ret a, Q, s => ∀ s', P.inv s' → P.rely t s s' → Q a s'
  | .step act k, Q, s => ∀ s', P.inv s' → P.rely t s s' → P.needs t _ act s' ∧
      (g t _ act s' → ∀ b s'', S.handle t _ act s' = .ok (b, s'') →
        P.inv s'' ∧ P.guar t s' s'' ∧ Keeps t (k b) Q s'')

/-- The others keep what `t` knows. -/
def Stable (t : T) (J : σ → Prop) : Prop :=
  ∀ s s', P.inv s' → P.rely t s s' → J s → J s'

/-- An access of `t` keeps the protocol, and turns what `t` knows into `J'`. -/
def Does (t : T) (J : σ → Prop) (act : F β) (J' : β → σ → Prop) : Prop :=
  ∀ s, P.inv s → J s → P.needs t β act s ∧
    (g t β act s → ∀ b s', S.handle t β act s = .ok (b, s') →
      P.inv s' ∧ P.guar t s s' ∧ J' b s')

variable {P} {p : Prog F α}

/-- The others may act before the program goes on. -/
theorem Keeps.stable (hp : P.Keeps t p Q s) (hR : P.rely t s s') : P.Keeps t p Q s' := by
  cases p with
  | ret a => exact fun s₁ hI h => hp s₁ hI (P.rely_trans _ _ _ _ hR h)
  | step act k => exact fun s₁ hI h => hp s₁ hI (P.rely_trans _ _ _ _ hR h)

/-- What is known of the state may be what the others leave of it. -/
theorem keeps_of_rely
    (hp : ∀ s', P.inv s' → P.rely t s s' → P.Keeps t p Q s') : P.Keeps t p Q s := by
  cases p with
  | ret a => exact fun s' hI hR => hp s' hI hR s' hI (P.rely_refl t s')
  | step act k => exact fun s' hI hR => hp s' hI hR s' hI (P.rely_refl t s')

theorem Keeps.mono (hp : P.Keeps t p Q s) (hQ : ∀ a s', Q a s' → Q' a s') : P.Keeps t p Q' s := by
  induction p generalizing s with
  | ret a => exact fun s' hI hR => hQ a s' (hp s' hI hR)
  | step act k ih =>
    intro s' hI hR
    obtain ⟨hneeds, hstep⟩ := hp s' hI hR
    refine ⟨hneeds, fun hg b s'' hact => ?_⟩
    obtain ⟨hI'', hG, hk⟩ := hstep hg b s'' hact
    exact ⟨hI'', hG, ih b hk⟩

/-- What a program returns is one of the values it may return. -/
theorem Keeps.yields {W : α → Prop} (hp : P.Keeps t p Q s) (hW : p.Yields W) :
    P.Keeps t p (fun a s' => Q a s' ∧ W a) s := by
  induction p generalizing s with
  | ret a => exact fun s' hI hR => ⟨hp s' hI hR, hW⟩
  | step act k ih =>
    intro s' hI hR
    obtain ⟨hneeds, hstep⟩ := hp s' hI hR
    refine ⟨hneeds, fun hg b s'' hact => ?_⟩
    obtain ⟨hI'', hG, hk⟩ := hstep hg b s'' hact
    exact ⟨hI'', hG, ih b hk (hW b)⟩

theorem keeps_pure {a : α} (hQ : P.Stable t (Q a)) (hq : Q a s) : P.Keeps t (pure a) Q s :=
  fun s' hI hR => hQ s s' hI hR hq

theorem keeps_bind {p : Prog F β} {f : β → Prog F α}
    (hp : P.Keeps t p (fun b s' => P.Keeps t (f b) Q s') s) : P.Keeps t (p >>= f) Q s := by
  show P.Keeps t (p.bind f) Q s
  induction p generalizing s with
  | ret b => exact keeps_of_rely hp
  | step act k ih =>
    intro s' hI hR
    obtain ⟨hneeds, hstep⟩ := hp s' hI hR
    refine ⟨hneeds, fun hg b s'' hact => ?_⟩
    obtain ⟨hI'', hG, hk⟩ := hstep hg b s'' hact
    exact ⟨hI'', hG, ih b hk⟩

variable {J : σ → Prop}

/-- One access, in whatever state the others left. -/
theorem keeps_access {k : β → Prog F α} {J' : β → σ → Prop} (hdoes : P.Does t J act J')
    (hJ : P.Stable t J) (hk : ∀ b s', P.inv s' → J' b s' → P.Keeps t (k b) Q s') (hs : J s) :
    P.Keeps t (Prog.lift act >>= k) Q s := by
  intro s' hI hR
  obtain ⟨hneeds, hstep⟩ := hdoes s' hI (hJ s s' hI hR hs)
  refine ⟨hneeds, fun hg b s'' hact => ?_⟩
  obtain ⟨hI'', hG, hb⟩ := hstep hg b s'' hact
  exact ⟨hI'', hG, hk b s'' hI'' hb⟩

theorem keeps_lift {act : F α} (hdoes : P.Does t J act Q) (hJ : P.Stable t J)
    (hQ : ∀ a, P.Stable t (Q a)) (hs : J s) : P.Keeps t (Prog.lift act) Q s :=
  keeps_access (k := .ret) hdoes hJ (fun a _ _ hq => keeps_pure (hQ a) hq) hs

theorem Does.mono {J J₁ : σ → Prop} {J' J₁' : β → σ → Prop} (h : P.Does t J act J')
    (hpre : ∀ s, J₁ s → J s) (hpost : ∀ b s', J' b s' → J₁' b s') : P.Does t J₁ act J₁' := by
  intro s hI hJ
  obtain ⟨hneeds, hstep⟩ := h s hI (hpre s hJ)
  refine ⟨hneeds, fun hg b s' hact => ?_⟩
  obtain ⟨hI', hG, hb⟩ := hstep hg b s' hact
  exact ⟨hI', hG, hpost b s' hb⟩

/-- A program keeps the protocol of a system with more accesses. -/
theorem Keeps.hoist {G : Type → Type 1} {S' : System T G σ ε} {g' : Guard T G σ}
    {P' : Protocol S' g'} {f : ∀ β : Type, F β → G β} (hp : P.Keeps t p Q s)
    (hinv : P'.inv = P.inv) (hrely : P'.rely = P.rely) (hguar : P'.guar = P.guar)
    (hneeds : ∀ β (act : F β) s, P.needs t β act s → P'.needs t β (f β act) s)
    (hguard : ∀ β (act : F β) s, g' t β (f β act) s → g t β act s)
    (hhandle : ∀ β (act : F β) s, S'.handle t β (f β act) s = S.handle t β act s) :
    P'.Keeps t (p.hoist f) Q s := by
  induction p generalizing s with
  | ret a =>
    intro s' hI hR
    rw [hinv] at hI
    rw [hrely] at hR
    exact hp s' hI hR
  | step act k ih =>
    intro s' hI hR
    rw [hinv] at hI
    rw [hrely] at hR
    obtain ⟨hn, hstep⟩ := hp s' hI hR
    refine ⟨hneeds _ act s' hn, fun hg b s'' hact => ?_⟩
    rw [hhandle] at hact
    obtain ⟨hI'', hG, hk⟩ := hstep (hguard _ act s' hg) b s'' hact
    rw [hinv, hguar]
    exact ⟨hI'', hG, ih b hk⟩

/-- A program keeps the protocol of a system with more state. -/
theorem Keeps.pull {σ' ε' : Type} {S' : System T F σ' ε'} {g' : Guard T F σ'}
    {P' : Protocol S' g'} {f : σ' → σ} {s : σ'} (hp : P.Keeps t p Q (f s))
    (hinv : ∀ s, P'.inv s → P.inv (f s)) (hrely : ∀ s s', P'.rely t s s' → P.rely t (f s) (f s'))
    (hneeds : ∀ β (act : F β) s, P'.inv s → P.needs t β act (f s) → P'.needs t β act s)
    (hguard : ∀ β (act : F β) s, g' t β act s → g t β act (f s))
    (hact : ∀ β (act : F β) s b s', P'.inv s → P.needs t β act (f s) →
      S'.handle t β act s = .ok (b, s') → S.handle t β act (f s) = .ok (b, f s') ∧
        (P.inv (f s') → P.guar t (f s) (f s') → P'.inv s' ∧ P'.guar t s s')) :
    P'.Keeps t p (fun a s' => Q a (f s')) s := by
  induction p generalizing s with
  | ret a => exact fun s' hI hR => hp (f s') (hinv s' hI) (hrely s s' hR)
  | step act k ih =>
    intro s' hI hR
    obtain ⟨hn, hstep⟩ := hp (f s') (hinv s' hI) (hrely s s' hR)
    refine ⟨hneeds _ act s' hI hn, fun hg b s'' hs'' => ?_⟩
    obtain ⟨hs, hkept⟩ := hact _ act s' b s'' hI hn hs''
    obtain ⟨hI'', hG, hk⟩ := hstep (hguard _ act s' hg) b (f s'') hs
    exact ⟨(hkept hI'' hG).1, (hkept hI'' hG).2, ih b hk⟩

theorem keeps_ite {c : Prop} [Decidable c] {p q : Prog F α} (hp : c → P.Keeps t p Q s)
    (hq : ¬ c → P.Keeps t q Q s) : P.Keeps t (if c then p else q) Q s := by
  split
  · exact hp ‹_›
  · exact hq ‹_›

/-- A program all of whose accesses keep the protocol and what `t` knows. -/
theorem keeps_of_only {A : ∀ β : Type, F β → Prop} (hp : p.Only A) (hJ : P.Stable t J)
    (hA : ∀ β (act : F β), A β act → P.Does t J act fun _ s' => J s') (hs : J s) :
    P.Keeps t p (fun _ s' => J s') s := by
  induction p generalizing s with
  | ret a => exact fun s' hI hR => hJ s s' hI hR hs
  | step act k ih =>
    intro s' hI hR
    obtain ⟨hneeds, hstep⟩ := hA _ act hp.1 s' hI (hJ s s' hI hR hs)
    refine ⟨hneeds, fun hg b s'' hact => ?_⟩
    obtain ⟨hI'', hG, hJ''⟩ := hstep hg b s'' hact
    exact ⟨hI'', hG, ih b (hp.2 b) hJ''⟩

theorem Stable.and {J J' : σ → Prop} (hJ : P.Stable t J) (hJ' : P.Stable t J') :
    P.Stable t fun s => J s ∧ J' s :=
  fun s s' hI hR h => ⟨hJ s s' hI hR h.1, hJ' s s' hI hR h.2⟩

/-- The protocol in which every thread relies on just what the others guarantee, step after
step. -/
def ofSteps (S : System T F σ ε) (g : Guard T F σ) (inv : σ → Prop) (guar : T → σ → σ → Prop)
    (needs : Guard T F σ) (rest : T → σ → Prop) (guar_refl : ∀ t s, guar t s s) :
    Protocol S g where
  inv := inv
  rely t := ReflTransGen fun s s' => inv s ∧ inv s' ∧ ∃ u, u ≠ t ∧ guar u s s'
  guar := guar
  needs := needs
  rest := rest
  rely_refl _ _ := .refl
  rely_trans _ _ _ _ := .trans
  guar_refl := guar_refl
  rely_of_guar _ u _ _ hne hI hI' hG := .single ⟨hI, hI', u, hne.symm, hG⟩

/-- There, what one step of another thread keeps is stable. -/
theorem stable_ofSteps {inv : σ → Prop} {guar : T → σ → σ → Prop} {needs : Guard T F σ}
    {rest : T → σ → Prop} {guar_refl : ∀ t s, guar t s s}
    (h : ∀ u s s', u ≠ t → inv s → inv s' → guar u s s' → J s → J s') :
    (ofSteps S g inv guar needs rest guar_refl).Stable t J := by
  intro s s' _ hR hJ
  induction hR with
  | refl => exact hJ
  | tail _ hstep ih =>
    obtain ⟨hI, hI', u, hu, hG⟩ := hstep
    exact h u _ _ hu hI hI' hG (ih hI)

/-! ### Putting the threads together -/

variable (P)

/-- The invariant holds, and the threads in `A` keep the protocol with what they have left to
run. -/
structure Among (A : T → Prop) (w : Pool T F σ) : Prop where
  inv : P.inv w.mem
  keeps : ∀ t, A t → P.Keeps t (w.prog t) (fun _ => P.rest t) w.mem

/-- All threads do. -/
abbrev Good (w : Pool T F σ) : Prop :=
  P.Among (fun _ => True) w

/-- A legal call keeps the protocol from its beginning on. -/
def Calls : Prop :=
  ∀ t c s, P.inv s → P.rest t s → S.legal t c s →
    P.inv (S.enter t c s) ∧ P.guar t s (S.enter t c s) ∧
      P.Keeps t (S.code t c) (fun _ => P.rest t) (S.enter t c s)

variable {P} {w w' : Pool T F σ} {A : T → Prop}

theorem good_idle (hs : P.inv s) (hrest : ∀ t s', P.inv s' → P.rely t s s' → P.rest t s') :
    P.Good (Pool.idle s) :=
  ⟨hs, fun t _ => hrest t⟩

/-- What a thread makes sure of before its next access. -/
theorem Among.needs (hw : P.Among A w) (ht : A t) {k : β → Prog F Unit}
    (hprog : w.prog t = .step act k) : P.needs t β act w.mem := by
  have hp := hw.keeps t ht
  rw [hprog] at hp
  exact (hp w.mem hw.inv (P.rely_refl t w.mem)).1

/-- What a thread has left behind when it has nothing to run. -/
theorem Among.rest (hw : P.Among A w) (ht : A t) (hidle : w.prog t = .ret ()) : P.rest t w.mem := by
  have hp := hw.keeps t ht
  rw [hidle] at hp
  exact hp w.mem hw.inv (P.rely_refl t w.mem)

/-- Thread `t` has done something to the memory. -/
theorem Among.guar {D : T → Prop} (hw : P.Among A w) (hA : ∀ u, D u → A u ∧ u ≠ t)
    (hI : P.inv s) (hG : P.guar t w.mem s) : P.Among D { w with mem := s } :=
  ⟨hI, fun u hu => (hw.keeps u (hA u hu).1).stable
    (P.rely_of_guar u t w.mem s (hA u hu).2 hw.inv hI hG)⟩

variable [DecidableEq T]

/-- What one step does. -/
theorem Among.step (hcalls : P.Calls) (hw : P.Among A w) (ht : A t)
    (hstep : Pool.Step S g t w w') : P.Among A w' ∧ P.guar t w.mem w'.mem := by
  -- the thread's own program goes on; the others' survive what it did
  have hassemble : ∀ {s : σ} {p : Prog F Unit}, P.inv s → P.guar t w.mem s →
      P.Keeps t p (fun _ => P.rest t) s → P.Among A { mem := s, prog := update w.prog t p } := by
    intro s p hI hG hp
    refine ⟨hI, fun u hA => ?_⟩
    by_cases hu : u = t
    · subst hu
      show P.Keeps u (update w.prog u p u) _ _
      rw [update_self]
      exact hp
    · show P.Keeps u (update w.prog t p u) _ _
      rw [update_of_ne hu]
      exact (hw.guar (D := fun u => A u ∧ u ≠ t) (fun _ h => h) hI hG).keeps u ⟨hA, hu⟩
  cases hstep with
  | call c hidle hlegal =>
    obtain ⟨hI, hG, hp⟩ := hcalls t c w.mem hw.inv (hw.rest ht hidle) hlegal
    exact ⟨hassemble hI hG hp, hG⟩
  | access hprog hguard hact =>
    have hp := hw.keeps t ht
    rw [hprog] at hp
    obtain ⟨hI, hG, hk⟩ := (hp w.mem hw.inv (P.rely_refl t w.mem)).2 hguard _ _ hact
    exact ⟨hassemble hI hG hk, hG⟩

/-- The threads other than `t` run, and `t` can rely on them. -/
theorem Among.without (hcalls : P.Calls) (hw : P.Among (· ≠ t) w)
    (hrun : ReflTransGen (Pool.Without S g t) w w') :
    P.Among (· ≠ t) w' ∧ P.rely t w.mem w'.mem := by
  induction hrun with
  | refl => exact ⟨hw, P.rely_refl t _⟩
  | tail _ hstep ih =>
    obtain ⟨u, hu, hstep⟩ := hstep
    obtain ⟨hw', hG⟩ := ih.1.step hcalls hu hstep
    exact ⟨hw', P.rely_trans _ _ _ _ ih.2 (P.rely_of_guar t u _ _ hu.symm ih.1.inv hw'.inv hG)⟩

/-- If every call keeps the protocol, every run does. -/
theorem run (hcalls : P.Calls) (hw : P.Good w) (hrun : ReflTransGen (Pool.Steps S g) w w') :
    P.Good w' := by
  induction hrun with
  | refl => exact hw
  | tail _ hstep ih =>
    obtain ⟨t, hstep⟩ := hstep
    exact (ih.step hcalls trivial hstep).1

/-- A run meets every guard that follows from what the threads make sure of. -/
theorem narrow {g' : Guard T F σ} (hcalls : P.Calls)
    (hg : ∀ t β (act : F β) s, P.inv s → P.needs t β act s → g t β act s → g' t β act s)
    (hw : P.Good w) (hrun : ReflTransGen (Pool.Steps S g) w w') :
    ReflTransGen (Pool.Steps S g') w w' := by
  induction hrun with
  | refl => exact .refl
  | tail hrun hstep ih =>
    have hgood := run hcalls hw hrun
    obtain ⟨t, hstep⟩ := hstep
    refine ih.tail ⟨t, ?_⟩
    cases hstep with
    | call c hidle hlegal => exact .call c hidle hlegal
    | access hprog hguard hact =>
      exact .access hprog (hg _ _ _ _ hgood.inv (hgood.needs trivial hprog) hguard) hact

/-- With nobody else around, a thread runs until it halts. -/
theorem Among.alone (hcalls : P.Calls) {E E' : ε → Prop} {p : Prog F Unit}
    (hE : ∀ β (act : F β) s, P.needs t β act s → ∀ e, S.handle t β act s = .error e → E e)
    (hw : P.Among A w) (ht : A t) (hprog : w.prog t = p)
    (hp : Prog.wp (S.handle t) p (fun _ _ => True) E' w.mem) :
    ∃ w', ReflTransGen (Pool.Step S g t) w w' ∧ w'.Halts S g t fun e => E e ∧ E' e := by
  induction p generalizing w with
  | ret a => exact ⟨w, .refl, .inl hprog⟩
  | @step β act k ih =>
    by_cases hguard : g t β act w.mem
    · rw [Prog.wp_step] at hp
      cases hact : S.handle t β act w.mem with
      | error e =>
        rw [hact] at hp
        have he := hE β act w.mem (hw.needs ht hprog) e hact
        exact ⟨w, .refl, .inr ⟨β, act, k, hprog, .inr ⟨e, ⟨he, hp⟩, hact⟩⟩⟩
      | ok r =>
        rw [hact] at hp
        have hstep : Pool.Step S g t w { mem := r.2, prog := update w.prog t (k r.1) } :=
          .access hprog hguard hact
        obtain ⟨w', hrun, hend⟩ :=
          ih r.1 (hw.step hcalls ht hstep).1 (update_self ..) hp
        exact ⟨w', .head hstep hrun, hend⟩
    · exact ⟨w, .refl, .inr ⟨β, act, k, hprog, .inl hguard⟩⟩

end Protocol

end Lib
