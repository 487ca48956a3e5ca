/-
What a protocol needs for the operations on a detectable word.

`load`, `store` and `update` are followed once, for any protocol: each rule asks what one
access does to what the thread knows, and puts the accesses together.  The loop of `update`
goes round with what is known of the word that was read last (`seen`).
-/
import Cxlalloc.Detectables

namespace Cxlalloc.Detectable

open Lib
open Lib.Protocol

variable {T B R σ α : Type} [Bracket B] {S : System T (Act T B R) σ Panic}
  {g : Guard T (Act T B R) σ} {P : Protocol S g} {t : T} {o : Obj B α} {s : σ}

/-- A thread that stops with a failure does nothing. -/
theorem keeps_panic {e : Panic} {J : σ → Prop} {Q : α → σ → Prop} (hJ : P.Stable t J)
    (hpanic : ∀ s, P.inv s → J s → P.needs t Empty (.panic e) s) (hs : J s) :
    P.Keeps t (panic e) Q s := by
  intro s' hI hR
  exact ⟨hpanic s' hI (hJ s s' hI hR hs), fun _ b => b.elim⟩

/-- Helping records the tag of a word, if it has one. -/
theorem keeps_help {w : Word T α} {J H : σ → Prop} (hJ : P.Stable t J) (hH : P.Stable t H)
    (huntagged : w.id = none → ∀ s, P.inv s → J s → H s)
    (hstore : ∀ u, w.id = some u → P.Does t J (.storeHelp t u w.version) fun _ => H)
    (hs : J s) : P.Keeps t (help t w) (fun _ => H) s := by
  unfold help
  split
  · rename_i hid
    refine keeps_of_rely fun s' hI hR => ?_
    exact keeps_pure hH (huntagged hid s' hI (hJ s s' hI hR hs))
  · rename_i u hid
    exact keeps_lift (hstore u hid) hJ (fun _ => hH) hs

section Operations

variable {J : σ → Prop} {seen helped : Word T α → σ → Prop} {Q : σ → Prop}

/-- `Detectable::load`. -/
theorem keeps_load (hJ : P.Stable t J) (hhelped : ∀ w, P.Stable t (helped w))
    (hload : P.Does t J (.loadWord o) seen)
    (hhelp : ∀ w s, P.inv s → seen w s → P.Keeps t (help t w) (fun _ => helped w) s) (hs : J s) :
    P.Keeps t (load t o) (fun a s' => ∃ w, w.inner = a ∧ helped w s') s := by
  refine keeps_access hload hJ (fun w s' hI hw => keeps_bind ?_) hs
  refine (hhelp w s' hI hw).mono fun _ s'' h => ?_
  refine keeps_pure (fun s₁ s₂ hI₂ hR => ?_) ⟨w, rfl, h⟩
  rintro ⟨w', hw', hh⟩
  exact ⟨w', hw', hhelped w' s₁ s₂ hI₂ hR hh⟩

/-- `Detectable::store`. -/
theorem keeps_store {value : α} (hJ : P.Stable t J) (hhelped : ∀ w, P.Stable t (helped w))
    (hQ : P.Stable t Q) (hload : P.Does t J (.loadWord o) seen)
    (hhelp : ∀ w s, P.inv s → seen w s → P.Keeps t (help t w) (fun _ => helped w) s)
    (hstore : ∀ w, P.Does t (helped w)
      (.storeWord o { id := some t, version := 0, inner := value }) fun _ => Q)
    (hs : J s) : P.Keeps t (store t o value) (fun _ => Q) s := by
  refine keeps_access hload hJ (fun w s' hI hw => keeps_bind ?_) hs
  refine (hhelp w s' hI hw).mono fun _ s'' h => ?_
  exact keeps_lift (hstore w) (hhelped w) (fun _ => hQ) h

end Operations

section Update

variable [FromState B R] {version : Version}
  {next : α → Version → Code T B R (Option (α × HeapState B))}
  {seen helped : Word T α → σ → Prop} {ready tried : Word T α → α × HeapState B → σ → Prop}
  {Q : Option α → σ → Prop}

/-- What one round of the loop of `Detectable::update` does to what the thread knows. -/
structure Round (P : Protocol S g) (t : T) (o : Obj B α) (version : Version)
    (next : α → Version → Code T B R (Option (α × HeapState B)))
    (seen helped : Word T α → σ → Prop) (ready tried : Word T α → α × HeapState B → σ → Prop)
    (Q : Option α → σ → Prop) : Prop where
  stable_seen : ∀ w, P.Stable t (seen w)
  stable_helped : ∀ w, P.Stable t (helped w)
  stable_ready : ∀ w r, P.Stable t (ready w r)
  stable_tried : ∀ w r, P.Stable t (tried w r)
  stable_return : ∀ a, P.Stable t (Q a)
  panic : ∀ w s, P.inv s → seen w s → P.needs t Empty (.panic .diverge) s
  help : ∀ w s, P.inv s → seen w s → P.Keeps t (help t w) (fun _ => helped w) s
  next : ∀ w s, P.inv s → helped w s → P.Keeps t (next w.inner version)
    (fun r s' => (r = none → Q none s') ∧ ∀ p, r = some p → ready w p s') s
  log : ∀ w p, P.Does t (ready w p) (.storeLog t (some (FromState.fromState p.2)))
    fun _ => tried w p
  cas : ∀ w p, P.Does t (tried w p)
    (.casWord o w { id := some t, version := version, inner := p.1 })
    fun r s' => (r = none → Q (some w.inner) s') ∧ ∀ w', r = some w' → seen w' s'

theorem Round.keeps_updateLoop (h : Round P t o version next seen helped ready tried Q) {n : ℕ}
    {w : Word T α} (hs : seen w s) : P.Keeps t (updateLoop t o version next n w) Q s := by
  induction n generalizing w s with
  | zero => exact keeps_panic (h.stable_seen w) (h.panic w) hs
  | succ n ih =>
    refine keeps_bind (keeps_of_rely fun s₁ hI₁ hR₁ => ?_)
    refine (h.help w s₁ hI₁ (h.stable_seen w s s₁ hI₁ hR₁ hs)).mono fun _ s₂ hw => ?_
    refine keeps_bind (keeps_of_rely fun s₃ hI₃ hR₃ => ?_)
    refine (h.next w s₃ hI₃ (h.stable_helped w s₂ s₃ hI₃ hR₃ hw)).mono fun r s₄ hr => ?_
    cases r with
    | none => exact keeps_pure (h.stable_return none) (hr.1 rfl)
    | some p =>
      refine keeps_access (h.log w p) (h.stable_ready w p) (fun _ s₅ hI₅ hp => ?_)
        (hr.2 p rfl)
      refine keeps_access (h.cas w p) (h.stable_tried w p) (fun r s₆ hI₆ hq => ?_) hp
      cases r with
      | none => exact keeps_pure (h.stable_return _) (hq.1 rfl)
      | some w' => exact ih (hq.2 w' rfl)

/-- `Detectable::update`. -/
theorem keeps_update {J : σ → Prop} {called announced : Version → σ → Prop}
    {seen helped : Version → Word T α → σ → Prop}
    {ready tried : Version → Word T α → α × HeapState B → σ → Prop} {retry : ℕ}
    (hJ : P.Stable t J) (hcalled : ∀ v, P.Stable t (called v))
    (hannounced : ∀ v, P.Stable t (announced v)) (hbegin : P.Does t J (.loadHelp t t) called)
    (hannounce : ∀ v, P.Does t (called v) (.storeHelp t t v.next) fun _ => announced v.next)
    (hload : ∀ v, P.Does t (announced v) (.loadWord o) (seen v))
    (hround : ∀ v, Round P t o v next (seen v) (helped v) (ready v) (tried v) Q) (hs : J s) :
    P.Keeps t (update retry t o next) Q s := by
  refine keeps_access hbegin hJ (fun v s₁ hI₁ hv => ?_) hs
  refine keeps_access (hannounce v) (hcalled v) (fun _ s₂ hI₂ hv' => ?_) hv
  refine keeps_access (hload v.next) (hannounced v.next) (fun w s₃ hI₃ hw => ?_) hv'
  exact (hround v.next).keeps_updateLoop hw

end Update

end Cxlalloc.Detectable
