/-
The hazards of one thread, access by access (`huge.rs`, `Owned`).

The array belongs to one thread, which alone inserts into it and removes from it.  Any thread
may ask at any time whether an offset is in it (`contains`): it loads `len` once and then the
cells one by one, while the owner goes on.  `swap_remove` fills the hole with the offset of the
last cell, so a scan and a move can pass each other.

Next to the array, `Scanned` notes what is in the set by the calls made so far, and how far
each scan has come.
-/
import Cxlalloc.Lib.Pool
import Cxlalloc.Huge
import Mathlib.Data.List.Dedup
import Mathlib.Data.Fintype.Defs

namespace Cxlalloc

open Lib
open Lib.Prog (lift)
open Function

variable {T β α : Type}

/-- The accesses to `Owned::len` and `Owned::hazards`. -/
inductive HazardAct : Type → Type 1
  | loadLen : HazardAct ℕ
  | storeLen (len : ℕ) : HazardAct Unit
  | loadHazard (index : ℕ) : HazardAct (Option ℕ)
  | storeHazard (index : ℕ) (hazard : Option ℕ) : HazardAct Unit
  /-- A call of `contains` returns. -/
  | returned (found : Bool) : HazardAct Unit
  | panic (e : Panic) : HazardAct Empty

/-- An access that stores nothing. -/
def HazardAct.reads : HazardAct β → Bool
  | .loadLen => true
  | .loadHazard _ => true
  | .panic _ => true
  | _ => false

/-- `huge::Owned`, without the head of the list of descriptors. -/
structure Hazards where
  len : ℕ
  hazard : ℕ → Option ℕ

namespace Hazards

/-- What each access does. -/
def handle (β : Type) : HazardAct β → Hazards → Except Panic (β × Hazards)
  | .loadLen, m => .ok (m.len, m)
  | .storeLen len, m => .ok ((), { m with len := len })
  | .loadHazard index, m =>
    if index < hazardsLen then .ok (m.hazard index, m) else .error .outOfBounds
  | .storeHazard index hazard, m =>
    if index < hazardsLen then .ok ((), { m with hazard := update m.hazard index hazard })
    else .error .outOfBounds
  | .returned _, m => .ok ((), m)
  | .panic e, _ => .error e

/-- A call that stops. -/
def panic (e : Panic) : Prog HazardAct α := do
  let stopped ← lift (.panic e)
  stopped.elim

/-- `.position(|hazard| hazard.load() == Some(offset))` on the next `n` cells. -/
def position (offset : ℕ) : ℕ → ℕ → Prog HazardAct (Option ℕ)
  | 0, _ => pure none
  | n + 1, index => do
    let hazard ← lift (.loadHazard index)
    if hazard = some offset then pure (some index) else position offset n (index + 1)

/-- `Owned::contains`. -/
def contains (offset : ℕ) : Prog HazardAct Bool := do
  let len ← lift .loadLen
  let index ← position offset (min len hazardsLen) 0
  pure index.isSome

/-- `.map(|hazard| hazard.load().unwrap()).collect()` on the next `n` cells. -/
def collect : ℕ → ℕ → Prog HazardAct (List ℕ)
  | 0, _ => pure []
  | n + 1, index => do
    match ← lift (.loadHazard index) with
    | none => panic .unwrapNone
    | some offset => do
      let offsets ← collect n (index + 1)
      pure (offset :: offsets)

/-- `Owned::validate`. -/
def check (validate : Bool) : Prog HazardAct Unit := do
  let len ← lift .loadLen
  if validate then
    let offsets ← collect (min len hazardsLen) 0
    if len = offsets.dedup.length then pure () else panic .hazardRepeated
  else pure ()

/-- The check at the beginning of `Owned::insert`. -/
def isTaken (validate : Bool) (offset : ℕ) : Prog HazardAct Bool :=
  if validate then contains offset else pure false

/-- `Owned::insert`. -/
def insert (validate : Bool) (offset : ℕ) : Prog HazardAct Unit := do
  if ← isTaken validate offset then panic .hazardTaken
  else do
    let len ← lift .loadLen
    lift (.storeHazard len (some offset))
    lift (.storeLen (len + 1))
    check validate

/-- `Owned::swap_remove`. -/
def swapRemove (validate : Bool) (offset : ℕ) : Prog HazardAct Bool := do
  let len ← lift .loadLen
  match ← position offset (min len hazardsLen) 0 with
  | none => pure false
  | some index => do
    let last ← lift (.loadHazard (len - 1))
    lift (.storeHazard index last)
    lift (.storeHazard (len - 1) none)
    lift (.storeLen (len - 1))
    check validate
    pure true

end Hazards

/-- A call on the hazards of one thread. -/
inductive HazardCall : Type 1
  | insert (offset : ℕ)
  | swapRemove (offset : ℕ)
  | contains (offset : ℕ)

/-- The hazards of one thread, what the calls have put in, and how far each scan has come. -/
structure Scanned (T : Type) extends Hazards where
  /-- Inserted, and not asked to be removed since. -/
  held : ℕ → Bool
  /-- What the owner is about to insert. -/
  inserting : Option ℕ
  /-- What the thread's last call of `contains` is about. -/
  asked : T → Option ℕ
  /-- That offset has been held ever since the call. -/
  kept : T → Bool
  /-- The cells below this one have been read, and hold something else. -/
  next : T → ℕ
  /-- What the call has returned. -/
  result : T → Option Bool

namespace Scanned

variable [DecidableEq T]

/-- Nothing has happened yet. -/
def zeroed : Scanned T where
  len := 0
  hazard _ := none
  held _ := false
  inserting := none
  asked _ := none
  kept _ := false
  next _ := 0
  result _ := none

/-- What thread `t` has done by an access. -/
def note (t : T) (m : Scanned T) : HazardAct β → β → Scanned T
  | .storeLen _, _ =>
    match m.inserting with
    | some offset => { m with held := update m.held offset true, inserting := none }
    | none => m
  | .loadHazard index, hazard =>
    if hazard = m.asked t then m else { m with next := update m.next t (index + 1) }
  | .returned found, _ => { m with result := update m.result t (some found) }
  | _, _ => m

/-- What each access of thread `t` does. -/
def handle (t : T) (β : Type) (act : HazardAct β) (m : Scanned T) :
    Except Panic (β × Scanned T) :=
  match Hazards.handle β act m.toHazards with
  | .ok (b, h) => .ok (b, { m with toHazards := h }.note t act b)
  | .error e => .error e

/-- The owner, `t`, calls `insert`. -/
def callInsert (t : T) (offset : ℕ) (m : Scanned T) : Scanned T :=
  { m with
    inserting := some offset
    asked := update m.asked t none
    kept := update m.kept t false }

/-- The owner, `t`, calls `swap_remove`. -/
def callRemove (t : T) (offset : ℕ) (m : Scanned T) : Scanned T :=
  { m with
    held := update m.held offset false
    inserting := none
    asked := update m.asked t none
    kept := update (fun u => m.kept u && decide (m.asked u ≠ some offset)) t false }

/-- Thread `t` calls `contains`. -/
def callContains (t : T) (offset : ℕ) (m : Scanned T) : Scanned T :=
  { m with
    asked := update m.asked t (some offset)
    kept := update m.kept t (m.held offset)
    next := update m.next t 0
    result := update m.result t none }

/-- One thread inserts and removes, and every thread looks. -/
def system (validate : Bool) (owner : T) : System T HazardAct (Scanned T) Panic where
  Call := HazardCall
  code _ c :=
    match c with
    | .insert offset => Hazards.insert validate offset
    | .swapRemove offset => do
      let _ ← Hazards.swapRemove validate offset
    | .contains offset => do
      let found ← Hazards.contains offset
      lift (.returned found)
  legal t c _ :=
    match c with
    | .insert _ => t = owner
    | .swapRemove _ => t = owner
    | .contains _ => True
  enter t c m :=
    match c with
    | .insert offset => m.callInsert t offset
    | .swapRemove offset => m.callRemove t offset
    | .contains offset => m.callContains t offset
  handle := handle

/-- No scan of thread `u` for `offset` that is under way is past the cell `index`. -/
def Behind (u : T) (index offset : ℕ) (m : Scanned T) : Prop :=
  m.asked u = some offset → m.kept u = true → m.result u = none → m.next u ≤ index

/-- `swap_remove` moves no offset to where a scan for it has already been. -/
def NotPassed : Guard T HazardAct (Scanned T) :=
  fun _ _ act m =>
    match act with
    | .storeHazard index (some offset) => m.inserting = none → ∀ u, m.Behind u index offset
    | _ => True

instance {validate : Bool} {owner t : T} {m : Scanned T} (c : (system validate owner).Call) :
    Decidable ((system validate owner).legal t c m) :=
  match c with
  | .insert _ => inferInstanceAs (Decidable (t = owner))
  | .swapRemove _ => inferInstanceAs (Decidable (t = owner))
  | .contains _ => .isTrue trivial

instance [Fintype T] (t : T) (β : Type) (act : HazardAct β) (m : Scanned T) :
    Decidable (NotPassed t β act m) := by
  unfold NotPassed Behind
  split <;> infer_instance

end Scanned

end Cxlalloc
