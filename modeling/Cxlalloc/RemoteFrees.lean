/-
The blocks of one slab, and who frees them (`heap.rs`).

One slab is followed from the moment its owner has sized it.  The owner pops blocks of it and
frees blocks into it; the other threads free blocks remotely, and so does the owner once it
has disowned the slab.  Every call is run access by access among the others, until the slab
is claimed by whoever frees its last block, or all its blocks are back in the bitset.

Next to the memory, `SlabMem` notes where each block is, how often the remote counter has been
decremented, and who has claimed the slab.
-/
import Cxlalloc.Detectables

namespace Cxlalloc

open Lib
open Lib.Prog (lift)
open Function

/-- The accesses of a heap, and the return of a block to the application. -/
inductive HeapAct (T B : Type) [Bracket B] : Type → Type 1
  | heap {β : Type} (act : Access T B β) : HeapAct T B β
  | hand (offset : Offset B) (c : B) : HeapAct T B Unit

/-- Where a block is. -/
inductive BlockState (T : Type)
  /-- In the bitset. -/
  | free
  /-- Out of the bitset, and not returned by `pop` yet. -/
  | popped
  /-- With the application. -/
  | live
  /-- A thread has called `free` for it. -/
  | freeing (t : T)
  /-- Freed remotely. -/
  | gone
  deriving DecidableEq

/-- Whether a block is in a bitset. -/
def BitSet.has {n : ℕ} (s : BitSet n) (k : ℕ) : Bool :=
  (s.word (k / 64)).getLsbD (k % 64)

variable {T B β : Type} [Bracket B]

/-- The memory of a heap, and what became of the blocks of one slab. -/
structure SlabMem (T B : Type) [Bracket B] extends Mem T B (HeapState B) where
  place : ℕ → BlockState T
  /-- How many compare-exchanges of the remote counter have succeeded. -/
  decrements : ℕ
  /-- The thread that took the counter to zero. -/
  last : Option T
  /-- The threads that have called `claim`. -/
  claims : List T
  /-- The slab has been stolen, or has all its blocks again. -/
  closed : Bool

/-- A call on the slab. -/
inductive SlabCall : Type 1
  /-- `peek` and `pop`. -/
  | allocate
  | free (block : Bit)

/-- Which slab is followed: the thread that sized it, and its class. -/
structure Sizing (T B : Type) [Bracket B] where
  owner : T
  sizeClass : B
  index : Index B
  nonzero : Bracket.isZero sizeClass = false
  bound : index.value < 2 ^ 32

namespace SlabMem

variable [DecidableEq T]

/-- The slab has just been sized. -/
def sized (z : Sizing T B) (m : Mem T B (HeapState B)) : SlabMem T B :=
  { m with
    place := fun b => if b < Bracket.count z.sizeClass then .free else .gone
    decrements := 0
    last := none
    claims := []
    closed := false }

/-- What is noted after an access of thread `t`. -/
def note (z : Sizing T B) (t : T) (m : SlabMem T B) : Access T B β → β → SlabMem T B
  | .storeBits i s, _ =>
    if i = z.index then
      { m with
        place := fun b =>
          if s.has b then .free else if m.place b = .free then .popped else m.place b
        closed := m.closed || s.len == Bracket.count z.sizeClass }
    else m
  | .casWord (.remote i) _ new, none =>
    if i = z.index then
      { m with
        place := fun b => if m.place b = .freeing t then .gone else m.place b
        decrements := m.decrements + 1
        last := if new.inner.free = 0 then some t else m.last }
    else m
  | .record _ (.claim _), _ => { m with claims := t :: m.claims }
  | .storeOwner i (some _), _ => if i = z.index then { m with closed := true } else m
  | _, _ => m

/-- What each access to the heap of thread `t` does. -/
def handle [DecidableEq B] (z : Sizing T B) (t : T) (β : Type) (act : Access T B β)
    (m : SlabMem T B) : Except Panic (β × SlabMem T B) :=
  match Mem.handle β act m.toMem with
  | .ok (b, m') => .ok (b, { m with toMem := m' }.note z t act b)
  | .error e => .error e

/-- The application has the block at an offset. -/
def handOut (z : Sizing T B) (m : SlabMem T B) (offset : Offset B) : SlabMem T B :=
  match offset.intoIndex, offset.intoBlock z.sizeClass with
  | some i, some b =>
    if i = z.index then { m with place := update m.place b.toNat .live } else m
  | _, _ => m

/-- Threads that allocate from the slab and free its blocks, each once.  The owner allocates
while the slab is on top of its stack. -/
def system [DecidableEq B] (cfg : Config) (z : Sizing T B) :
    System T (HeapAct T B) (SlabMem T B) Panic where
  Call := SlabCall
  code t call :=
    match call with
    | .allocate => do
      match ← (Heap.allocateBlock cfg t z.sizeClass).hoist fun _ => .heap with
      | some offset => lift (.hand offset z.sizeClass)
      | none => pure ()
    | .free block =>
      (Heap.free cfg t (Offset.fromBlock z.sizeClass z.index block)).hoist fun _ => .heap
  legal t call m :=
    match call with
    | .allocate => t = z.owner ∧ m.closed = false ∧
        m.head (.sized t z.sizeClass) = some z.index
    | .free block => block.toNat < Bracket.count z.sizeClass ∧ m.place block.toNat = .live
  enter t call m :=
    match call with
    | .allocate => m
    | .free block => { m with place := update m.place block.toNat (.freeing t) }
  handle t _ act m :=
    match act with
    | .heap act => handle z t _ act m
    | .hand offset _ => .ok ((), m.handOut z offset)

end SlabMem

end Cxlalloc
