/-
The slab heap, access by access (`heap.rs`).

`Session` takes a call as one step.  Here any number of threads allocate and free, and every
load, store and compare-exchange of a call is a step of its own, in any order among those of the
others.

Next to the memory, `HeapMem` notes where every slab and every block is, which head of the
global stack each thread has read last, and which blocks the application holds.
-/
import Cxlalloc.RemoteFrees

namespace Cxlalloc

open Lib
open Lib.Prog (lift)
open Function

/-- Where a slab is. -/
inductive SlabPlace (T : Type)
  /-- Never handed out by `bump`. -/
  | fresh
  /-- On the global stack. -/
  | global
  /-- With a thread, and not carved into blocks. -/
  | unsized (t : T)
  /-- Carved into blocks by a thread that has not disowned it. -/
  | sized (t : T)
  /-- Carved into blocks, and nobody's. -/
  | disowned
  deriving DecidableEq

/-- Where a block is. -/
inductive BlockPlace (T : Type)
  /-- In the bitset of its slab. -/
  | slab
  /-- In a call of a thread: popped and not returned yet, or about to be freed. -/
  | thread (t : T)
  /-- With the application. -/
  | application
  /-- Freed remotely, or not there. -/
  | gone
  deriving DecidableEq

/-- A call.  A free comes with the class of the block, which the code does not see. -/
inductive HeapCall (B : Type) : Type 1
  | allocate (c : B)
  | free (offset : Offset B) (c : B)

/-- The memory of a heap, and where everything is. -/
structure HeapMem (T B : Type) [Bracket B] extends Mem T B (HeapState B) where
  place : Index B → SlabPlace T
  block : Index B → ℕ → BlockPlace T
  /-- The head of the global stack that the thread has read last, and has not replaced. -/
  seen : T → Option (Word T (Option (Index B)))
  /-- The blocks the application holds, each with its class. -/
  live : List (Offset B × B)

namespace HeapMem

variable {T B β : Type} [Bracket B]

/-- Zero bits. -/
def zeroed : HeapMem T B :=
  { (Heap.zeroed : Heap T B) with
    help := fun _ _ => 0
    log := fun _ => none
    place := fun _ => .fresh
    block := fun _ _ => .gone
    seen := fun _ => none
    live := [] }

/-- The block at an offset is somewhere else. -/
def setBlock (m : HeapMem T B) (offset : Offset B) (c : B) (p : BlockPlace T) : HeapMem T B :=
  match offset.intoIndex, offset.intoBlock c with
  | some i, some b => { m with block := update m.block i (update (m.block i) b.toNat p) }
  | _, _ => m

variable [DecidableEq T]

/-- Thread `t` has written the bitset of a slab. -/
def marks (t : T) (i : Index B) (s : BitSet (Bracket.rows B)) (m : HeapMem T B) : HeapMem T B :=
  if m.place i = .sized t then
    { m with
      block := update m.block i fun b =>
        if s.has b then .slab else if m.block i b = .slab then .thread t else m.block i b }
  else m

/-- Thread `t` has read the head of the global stack. -/
def reads (t : T) (w : Word T (Option (Index B))) (m : HeapMem T B) : HeapMem T B :=
  { m with seen := update m.seen t (some w) }

/-- Thread `t` has replaced the head of the global stack.  It is a push if the new head is one
of its own slabs, and the batch behind that is now on the stack. -/
def swaps (cfg : Config) (t : T) (old new : Option (Index B)) (m : HeapMem T B) : HeapMem T B :=
  if new.any fun i => m.place i = .unsized t then
    { m with
      place := fun i => if i ∈ m.traceN cfg.batchGlobal new then .global else m.place i
      seen := update m.seen t none }
  else
    { m with
      place := fun i => if old = some i then .unsized t else m.place i
      seen := update m.seen t none }

/-- Thread `t` has raised the bump index. -/
def bumps (t : T) (old new : Option (Index B)) (m : HeapMem T B) : HeapMem T B :=
  { m with
    place := fun i =>
      if (old.getD .min).value ≤ i.value ∧ i.value < (new.getD .min).value then .unsized t
      else m.place i }

/-- Thread `t` has decremented the counter of a slab. -/
def decrements (t : T) (i : Index B) (new : Remote) (m : HeapMem T B) : HeapMem T B :=
  { m with
    place := if new.free = 0 then update m.place i (.unsized t) else m.place
    block := update m.block i fun b => if m.block i b = .thread t then .gone else m.block i b }

/-- What is noted after an access of thread `t`. -/
def note (cfg : Config) (t : T) (m : HeapMem T B) : Access T B β → β → HeapMem T B
  | .storeBits i s, _ => m.marks t i s
  | .storeOwner i none, _ =>
    if m.place i = .sized t then { m with place := update m.place i .disowned } else m
  | .storeHead (.unsized _) (some i), _ =>
    -- a slab that goes to the unsized stack is no longer carved into blocks
    if m.place i = .sized t then
      { m with
        place := update m.place i (.unsized t)
        block := update m.block i fun _ => .gone }
    else m
  | .storeWord (.remote i) _, _ =>
    -- the last write of `unsized_to_sized` to the slab
    { m with
      place := update m.place i (.sized t)
      block := update m.block i fun b => if (m.bits i).has b then .slab else .gone }
  | .loadWord .global, w => m.reads t w
  | .casWord .global _ _, some w => m.reads t w
  | .casWord .global old new, none => m.swaps cfg t old.inner new.inner
  | .casWord .bump old new, none => m.bumps t old.inner new.inner
  | .casWord (.remote i) _ new, none => m.decrements t i new.inner
  | _, _ => m

variable [DecidableEq B]

/-- What each access of thread `t` does. -/
def handle (cfg : Config) (t : T) (β : Type) :
    HeapAct T B β → HeapMem T B → Except Panic (β × HeapMem T B)
  | .heap act, m =>
    match Mem.handle β act m.toMem with
    | .ok (b, m') => .ok (b, { m with toMem := m' }.note cfg t act b)
    | .error e => .error e
  | .hand offset c, m =>
    .ok ((), { m.setBlock offset c .application with live := (offset, c) :: m.live })

/-- Threads that allocate, and free what the application holds. -/
def system (cfg : Config) : System T (HeapAct T B) (HeapMem T B) Panic where
  Call := HeapCall B
  code t call :=
    match call with
    | .allocate c => do
      match ← (Heap.allocateBlock cfg t c).hoist fun _ => .heap with
      | some offset => lift (.hand offset c)
      | none => pure ()
    | .free offset _ => (Heap.free cfg t offset).hoist fun _ => .heap
  legal _ call m :=
    match call with
    | .allocate _ => True
    | .free offset c => (offset, c) ∈ m.live
  enter t call m :=
    match call with
    | .allocate _ => m
    | .free offset c =>
      { m.setBlock offset c (.thread t) with live := m.live.erase (offset, c) }
  handle := handle cfg

instance (cfg : Config) (t : T) (call : (system (T := T) (B := B) cfg).Call) (m : HeapMem T B) :
    Decidable ((system cfg).legal t call m) :=
  match call with
  | .allocate _ => .isTrue trivial
  | .free offset c => inferInstanceAs (Decidable ((offset, c) ∈ m.live))

omit [DecidableEq T] [DecidableEq B] in
/-- No compare-exchange brings back a head of the global stack that another thread has read last
and not replaced. -/
def Fresh : Guard T (HeapAct T B) (HeapMem T B) :=
  fun t _ act m =>
    match act with
    | .heap (.casWord .global old new) => m.global = old → ∀ u, u ≠ t → m.seen u ≠ some new
    | _ => True

instance [Fintype T] (t : T) (β : Type) (act : HeapAct T B β) (m : HeapMem T B) :
    Decidable (Fresh t β act m) := by
  apply HeapAct.casesOn (motive := fun β act => Decidable (Fresh t β act m)) act
  case heap =>
    intro β act
    apply Act.casesOn (motive := fun β act => Decidable (Fresh t β (.heap act) m)) act
    case casWord =>
      intro α o
      apply Obj.casesOn (motive := fun α o => ∀ old new : Word T α, Decidable (Fresh t _ _ m)) o
      all_goals intros; unfold Fresh; infer_instance
    all_goals intros; exact .isTrue trivial
  case hand => exact fun _ _ => .isTrue trivial

end HeapMem

end Cxlalloc
