/-
Detectable words (`cas.rs`), with the `recover-cas` and `recover-log` features on.

A thread tags every compare-exchange with its id and a fresh version, and before it
overwrites a word it copies the word's tag into its row of the help array.  A thread
that crashed can then ask `detect` whether its last compare-exchange took effect.
-/
import Cxlalloc.Memory
import Mathlib.Data.Fintype.Card

namespace Cxlalloc.Detectable

open Lib.Prog (lift)

variable {T B R α : Type} [Bracket B]

/-- `Detectable::help`. -/
def help (t : T) (state : Word T α) : Code T B R Unit :=
  match state.id with
  | none => pure ()
  | some id => lift (.storeHelp t id state.version)

/-- `Detectable::load`. -/
def load (t : T) (o : Obj B α) : Code T B R α := do
  let old ← lift (.loadWord o)
  help t old
  pure old.inner

/-- `Detectable::store`. -/
def store (t : T) (o : Obj B α) (value : α) : Code T B R Unit := do
  let old ← lift (.loadWord o)
  help t old
  lift (.storeWord o { id := some t, version := 0, inner := value })

variable [FromState B R]

/-- The loop of `Detectable::update`, followed for a given number of rounds. -/
def updateLoop (t : T) (o : Obj B α) (version : Version)
    (next : α → Version → Code T B R (Option (α × HeapState B))) :
    ℕ → Word T α → Code T B R (Option α)
  | 0, _ => panic .diverge
  | n + 1, old => do
    help t old
    match ← next old.inner version with
    | none => pure none
    | some (new, log) => do
      lift (.storeLog t (some (FromState.fromState log)))
      match ← lift (.casWord o old { id := some t, version := version, inner := new }) with
      | some current => updateLoop t o version next n current
      | none => pure (some old.inner)

/-- `Detectable::update`.  A run in which nobody interferes needs one round of the
loop; `retry` more are followed. -/
def update (retry : ℕ) (t : T) (o : Obj B α)
    (next : α → Version → Code T B R (Option (α × HeapState B))) : Code T B R (Option α) := do
  let version := Version.next (← lift (.loadHelp t t))
  lift (.storeHelp t t version)
  let old ← lift (.loadWord o)
  updateLoop t o version next (retry + 1) old

/-- The scan of `Detectable::detect`: more than one row of the help array has
observed `version` of thread `t`. -/
def observed [Fintype T] (t : T) (version : Version) (help : T → T → Version) : Bool :=
  decide (1 < (Finset.univ.filter fun view => help view t = version).card)

/-- `Detectable::detect`. -/
def detect [DecidableEq T] [Fintype T] (t : T) (o : Obj B α) (version : Version) :
    Code T B R Bool := do
  if (← lift (.loadHelp t t)) ≠ version then
    panic .detectVersion
  else
    let state ← lift (.loadWord o)
    if state.id = some t ∧ state.version = version then
      pure true
    else
      lift (.scanHelp (observed t version))

end Cxlalloc.Detectable
