/-
Many threads on detectable words (`cas.rs`).

The calls are `load`, `store` and `update` on any of the words, each run access by access
among the others.  A thread that stops is one that takes no more steps; whoever recovers
for it asks `detect` about the version in its last record.

Next to the memory, `Watched` notes where each thread stands: how many updates it has begun,
the version it logged since, and whether its compare-exchange is still to succeed.
-/
import Cxlalloc.Lib.Pool
import Cxlalloc.Session

namespace Cxlalloc

open Lib
open Lib.Prog (Only Yields)
open Function

variable {T B R α β : Type} [Bracket B]

/-- The version a record carries. -/
def HeapState.version : HeapState B → Option Version
  | .globalToUnsized _ v => some v
  | .bumpToUnsized _ v => some v
  | .unsizedToGlobal _ v => some v
  | .remote _ v _ => some v
  | .detach _ v => some v
  | .unsizedToSized _ _ => none
  | .unsizedToGlobalSave _ => none
  | .sizedToApplication _ _ => none
  | .applicationToSized _ _ => none

/-- An access to neither a detectable word, nor the help array, nor the records. -/
def Act.plain : Act T B R β → Bool
  | .loadWord _ => false
  | .storeWord _ _ => false
  | .casWord _ _ _ => false
  | .loadHelp _ _ => false
  | .storeHelp _ _ _ => false
  | .loadLog _ => false
  | .storeLog _ _ => false
  | .scanHelp _ => false
  | _ => true

/-- What `Detectable::update` is called with: it looks at the slabs at most, and puts the
version into its record. -/
structure Next (T B α : Type) [Bracket B] where
  run : α → Version → HeapCode T B (Option (α × HeapState B))
  plain : ∀ a v, (run a v).Only fun _ act => act.plain
  carries : ∀ a v, (run a v).Yields fun r => ∀ p ∈ r, p.2.version = some v

/-- `Shared::bump`'s. -/
def Next.bump (cfg : Config) : Next T B (Option (Index B)) where
  run old version := do
    let new ← Heap.addIndex (old.getD .min) (cfg.batchBump % 2 ^ 32)
    pure (some (some new, .bumpToUnsized old version))
  plain old v := by
    refine .bind ?_ fun _ => .pure _
    unfold Heap.addIndex
    split
    · exact .pure _
    · exact ⟨rfl, fun b => b.elim⟩
  carries old v := by
    refine .bind fun new => ?_
    rintro p ⟨⟩
    rfl

/-- `Global::push`'s. -/
def Next.push (head tail : Index B) : Next T B (Option (Index B)) where
  run old version := do
    Prog.lift (.storeNext tail old)
    pure (some (some head, .unsizedToGlobal head version))
  plain old v := .bind (.lift rfl) fun _ => .pure _
  carries old v := by
    refine .bind fun _ => ?_
    rintro p ⟨⟩
    rfl

/-- `Global::pop`'s. -/
def Next.pop : Next T B (Option (Index B)) where
  run old version :=
    match old with
    | none => pure none
    | some index => do
      let new ← Prog.lift (.loadNext index)
      pure (some (new, .globalToUnsized index version))
  plain old v := by
    cases old with
    | none => exact .pure _
    | some i => exact .bind (.lift rfl) fun _ => .pure _
  carries old v := by
    cases old with
    | none => exact fun p hp => by cases hp
    | some i =>
      refine .bind fun _ => ?_
      rintro p ⟨⟩
      rfl

/-- A call on a detectable word. -/
inductive DetectCall (T B : Type) [Bracket B] : Type 1
  | load {α : Type} (o : Obj B α)
  | store {α : Type} (o : Obj B α) (value : α)
  | update {α : Type} (retry : ℕ) (o : Obj B α) (next : Next T B α)

/-- The program of a call. -/
def DetectCall.code (t : T) : DetectCall T B → HeapCode T B Unit
  | .load o => do
    let _ ← Detectable.load t o
  | .store o value => Detectable.store t o value
  | .update retry o next => do
    let _ ← Detectable.update retry t o next.run

/-- The memory of a heap, and where each thread stands in its updates. -/
structure Watched (T B : Type) [Bracket B] extends Mem T B (HeapState B) where
  /-- The thread has called `update`, and not announced a version yet. -/
  calling : T → Bool
  /-- How many versions the thread has announced. -/
  begun : T → ℕ
  /-- The compare-exchange of the version announced last is still to succeed. -/
  pending : T → Bool
  /-- The version of the record logged since `update` was called last. -/
  logged : T → Option Version

/-- The threads and their memory. -/
abbrev Threads (T B : Type) [Bracket B] : Type 1 :=
  Pool T (Access T B) (Watched T B)

namespace Watched

variable [DecidableEq T]

/-- Nothing has happened yet. -/
def zeroed : Watched T B where
  toHeap := Heap.zeroed
  help _ _ := 0
  log _ := none
  calling _ := false
  begun _ := 0
  pending _ := false
  logged _ := none

/-- Where thread `t` stands after an access. -/
def note (t : T) (m : Watched T B) : Access T B β → β → Watched T B
  | .storeHelp _ _ _, _ =>
    -- the first such store of an update is the announcement, the others are help
    if m.calling t then
      { m with
        calling := update m.calling t false
        begun := update m.begun t (m.begun t + 1)
        pending := update m.pending t true }
    else m
  | .storeLog _ r, _ => { m with logged := update m.logged t (r.bind HeapState.version) }
  | .casWord _ _ _, none => { m with pending := update m.pending t false }
  | _, _ => m

/-- What each access of thread `t` does. -/
def handle [DecidableEq B] (t : T) (β : Type) (act : Access T B β) (m : Watched T B) :
    Except Panic (β × Watched T B) :=
  match Mem.handle β act m.toMem with
  | .ok (b, m') => .ok (b, { m with toMem := m' }.note t act b)
  | .error e => .error e

/-- Thread `t` calls `update`. -/
def callUpdate (t : T) (m : Watched T B) : Watched T B :=
  { m with
    calling := update m.calling t true
    pending := update m.pending t false
    logged := update m.logged t none }

/-- Thread `t` calls something else. -/
def callOther (t : T) (m : Watched T B) : Watched T B :=
  { m with calling := update m.calling t false }

/-- Thread `t` makes a call. -/
def enter (t : T) (m : Watched T B) : DetectCall T B → Watched T B
  | .load _ => m.callOther t
  | .store _ _ => m.callOther t
  | .update _ _ _ => m.callUpdate t

/-- Threads that load, store and update detectable words. -/
def system [DecidableEq B] : System T (Access T B) (Watched T B) Panic where
  Call := DetectCall T B
  code t c := c.code t
  legal _ _ _ := True
  enter t c m := m.enter t c
  handle := handle

/-- Whenever a thread reads a word of its own, it is one of its latest version. -/
def OwnLatest : Guard T (Access T B) (Watched T B) :=
  fun t _ act m =>
    match act with
    | .loadWord o => (m.word o).id = some t → (m.word o).version = m.help t t
    | .casWord o old _ =>
      m.word o ≠ old → (m.word o).id = some t → (m.word o).version = m.help t t
    | _ => True

instance [DecidableEq B] (t : T) (c : (system (T := T) (B := B)).Call) (m : Watched T B) :
    Decidable (system.legal t c m) :=
  .isTrue trivial

instance (t : T) (β : Type) (act : Access T B β) (m : Watched T B) :
    Decidable (OwnLatest t β act m) := by
  apply Act.casesOn (motive := fun β act => Decidable (OwnLatest t β act m)) act
  case casWord =>
    intro α o old new
    have := o.decidableEq (m.word o) old
    unfold OwnLatest
    infer_instance
  all_goals intros; unfold OwnLatest; infer_instance

end Watched

end Cxlalloc
