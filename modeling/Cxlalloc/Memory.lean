/-
The memory of one heap, and the accesses its code makes.

`Heap T B` is the persistent metadata of one bracket: the coherent words of `Shared`
and of the remote counters, the stacks of every thread's `Owned`, and the `Local`
record of every slab, one field map each.  `Mem` adds the part of the allocator that
all heaps share: the help array and every thread's recovery record.

`Act` lists the accesses: one constructor per load, store or compare-exchange of the
source.  Programs over `Act` do not say what an access does; `Mem.handle` does, for
coherent memory.  `record` (statistics) and `flushCxl` (write back and drop a cached
copy) leave coherent memory as it is.
-/
import Cxlalloc.Lib.Prog
import Cxlalloc.Data
import Mathlib.Logic.Function.Basic

namespace Cxlalloc

open Function

/-- `cas::Version`. -/
abbrev Version := BitVec 16

/-- `Version::next`. -/
def Version.next (v : Version) : Version := v + 1

/-- `cas::State<T>`: what one detectable word holds. -/
structure Word (T α : Type) where
  id : Option T
  version : Version
  inner : α
  deriving DecidableEq

/-- `slab::Remote`. -/
structure Remote where
  free : ℕ
  deriving DecidableEq

/-- `recover::HeapState<B>`. -/
inductive HeapState (B : Type)
  | unsizedToSized (index : Option (Index B)) (sizeClass : B)
  | globalToUnsized (index : Index B) (version : Version)
  | bumpToUnsized (start : Option (Index B)) (version : Version)
  | unsizedToGlobalSave (index : Index B)
  | unsizedToGlobal (index : Index B) (version : Version)
  | sizedToApplication (index : Index B) (block : Bit)
  | applicationToSized (index : Index B) (block : Bit)
  | remote (index : Index B) (version : Version) (last : Bool)
  | detach (index : Index B) (version : Version)
  deriving DecidableEq

/-- `recover::State: From<HeapState<B>>`. -/
class FromState (B R : Type) where
  fromState : HeapState B → R

/-- `stat::thread::Event<B>`. -/
inductive Event (B : Type)
  | bump
  | globalToUnsized
  | allocate (size : ℕ)
  | unsizedToSized (sizeClass : B)
  | free (size : ℕ)
  | sizedToUnsized (sizeClass : B)
  | unsizedToGlobal
  | detach (sizeClass : B)
  | disown (sizeClass : B)
  | attach (sizeClass : B)
  | claim (sizeClass : B)

/-- Which `stack::Local` of which thread. -/
inductive StackId (T B : Type)
  | unsized (t : T)
  | sized (t : T) (c : B)
  deriving DecidableEq

/-- The stacks of one thread: the unsized one, or the one of a class. -/
def StackId.of {T B : Type} (t : T) : Option B → StackId T B
  | none => .unsized t
  | some c => .sized t c

/-- The thread a stack belongs to. -/
def StackId.thread {T B : Type} : StackId T B → T
  | .unsized t => t
  | .sized t _ => t

/-- The persistent metadata of one bracket. -/
structure Heap (T B : Type) [Bracket B] where
  /-- `Shared::free`: the head of the global stack. -/
  global : Word T (Option (Index B))
  /-- `Shared::bump`. -/
  bump : Word T (Option (Index B))
  /-- `stack::Local::head`. -/
  head : StackId T B → Option (Index B)
  /-- `stack::Local::len`. -/
  len : StackId T B → ℕ
  /-- `slab::Local::next`. -/
  next : Index B → Option (Index B)
  /-- `slab::Local::owner`. -/
  owner : Index B → Option T
  /-- `slab::Local::class`. -/
  sizeClass : Index B → B
  /-- `slab::Local::free`. -/
  bits : Index B → BitSet (Bracket.rows B)
  /-- `Slab::remote`. -/
  remote : Index B → Word T Remote
  /-- Ghost: the thread that last owned or stole the slab.  No program reads it. -/
  lastOwner : Index B → Option T

/-- A heap with the context its operations share. -/
structure Mem (T B R : Type) [Bracket B] extends Heap T B where
  /-- `allocator::Shared::help`. -/
  help : T → T → Version
  /-- `allocator::Owned::state`. -/
  log : T → Option R

/-- A word of zero bits. -/
def Word.zeroed {T α : Type} (inner : α) : Word T α :=
  { id := none, version := 0, inner := inner }

/-- A heap of zero bits. -/
def Heap.zeroed {T B : Type} [Bracket B] : Heap T B where
  global := .zeroed none
  bump := .zeroed none
  head _ := none
  len _ := 0
  next _ := none
  owner _ := none
  sizeClass _ := Bracket.zeroed
  bits _ := BitSet.zeroed
  remote _ := .zeroed ⟨0⟩
  lastOwner _ := none

/-- The detectable words of a heap, with what each holds. -/
inductive Obj (B : Type) : Type → Type
  | global : Obj B (Option (Index B))
  | bump : Obj B (Option (Index B))
  | remote (i : Index B) : Obj B Remote

namespace Heap

variable {T B : Type} [Bracket B] {α : Type}

/-- The word of a detectable object. -/
def word (h : Heap T B) : Obj B α → Word T α
  | .global => h.global
  | .bump => h.bump
  | .remote i => h.remote i

/-- Write the word of a detectable object. -/
def setWord (h : Heap T B) : Obj B α → Word T α → Heap T B
  | .global, w => { h with global := w }
  | .bump, w => { h with bump := w }
  | .remote i, w => { h with remote := update h.remote i w }

end Heap

/-- Words are compared bit for bit. -/
def Obj.decidableEq {T B α : Type} [DecidableEq T] (o : Obj B α) : DecidableEq (Word T α) :=
  match o with
  | .global => inferInstance
  | .bump => inferInstance
  | .remote _ => inferInstance

/-- One access of the source, indexed by what it answers. -/
inductive Act (T B R : Type) [Bracket B] : Type → Type 1
  | loadNext (i : Index B) : Act T B R (Option (Index B))
  | storeNext (i : Index B) (v : Option (Index B)) : Act T B R Unit
  | loadOwner (i : Index B) : Act T B R (Option T)
  | storeOwner (i : Index B) (v : Option T) : Act T B R Unit
  | loadClass (i : Index B) : Act T B R B
  | storeClass (i : Index B) (c : B) : Act T B R Unit
  | loadBits (i : Index B) : Act T B R (BitSet (Bracket.rows B))
  | storeBits (i : Index B) (s : BitSet (Bracket.rows B)) : Act T B R Unit
  | flushCxl (i : Index B) : Act T B R Unit
  | loadHead (s : StackId T B) : Act T B R (Option (Index B))
  | storeHead (s : StackId T B) (v : Option (Index B)) : Act T B R Unit
  | loadLen (s : StackId T B) : Act T B R ℕ
  | storeLen (s : StackId T B) (n : ℕ) : Act T B R Unit
  | loadWord {α : Type} (o : Obj B α) : Act T B R (Word T α)
  | storeWord {α : Type} (o : Obj B α) (w : Word T α) : Act T B R Unit
  /-- `compare_exchange`: answers `none` for `Ok`, the current word for `Err`. -/
  | casWord {α : Type} (o : Obj B α) (old new : Word T α) : Act T B R (Option (Word T α))
  | loadHelp (i j : T) : Act T B R Version
  | storeHelp (i j : T) (v : Version) : Act T B R Unit
  | loadLog (t : T) : Act T B R (Option R)
  | storeLog (t : T) (r : Option R) : Act T B R Unit
  /-- `validate!(..)` of a read-only check of the whole heap. -/
  | check (p : Heap T B → Bool) (e : Panic) : Act T B R Unit
  /-- Read-only scan of the whole help array. -/
  | scanHelp (p : (T → T → Version) → Bool) : Act T B R Bool
  | record (t : T) (e : Event B) : Act T B R Unit
  | panic (e : Panic) : Act T B R Empty

namespace Mem

variable {T B R : Type} [Bracket B] [DecidableEq T] [DecidableEq B]

/-- What each access does in coherent memory. -/
def handle (β : Type) : Act T B R β → Mem T B R → Except Panic (β × Mem T B R)
  | .loadNext i, m => .ok (m.next i, m)
  | .storeNext i v, m => .ok ((), { m with next := update m.next i v })
  | .loadOwner i, m => .ok (m.owner i, m)
  | .storeOwner i v, m =>
    .ok ((), { m with
      owner := update m.owner i v
      lastOwner := update m.lastOwner i (v.or (m.lastOwner i)) })
  | .loadClass i, m => .ok (m.sizeClass i, m)
  | .storeClass i c, m => .ok ((), { m with sizeClass := update m.sizeClass i c })
  | .loadBits i, m => .ok (m.bits i, m)
  | .storeBits i s, m => .ok ((), { m with bits := update m.bits i s })
  | .flushCxl _, m => .ok ((), m)
  | .loadHead s, m => .ok (m.head s, m)
  | .storeHead s v, m => .ok ((), { m with head := update m.head s v })
  | .loadLen s, m => .ok (m.len s, m)
  | .storeLen s n, m => .ok ((), { m with len := update m.len s n })
  | .loadWord o, m => .ok (m.word o, m)
  | .storeWord o w, m => .ok ((), { m with toHeap := m.setWord o w })
  | .casWord o old new, m =>
    if (o.decidableEq (m.word o) old).decide then
      .ok (none, { m with toHeap := m.setWord o new })
    else .ok (some (m.word o), m)
  | .loadHelp i j, m => .ok (m.help i j, m)
  | .storeHelp i j v, m =>
    .ok ((), { m with help := update m.help i (update (m.help i) j v) })
  | .loadLog t, m => .ok (m.log t, m)
  | .storeLog t r, m => .ok ((), { m with log := update m.log t r })
  | .check p e, m => if p m.toHeap then .ok ((), m) else .error e
  | .scanHelp p, m => .ok (p m.help, m)
  | .record _ _, m => .ok ((), m)
  | .panic e, _ => .error e

end Mem

/-- A program over the accesses of one heap. -/
abbrev Code (T B R : Type) [Bracket B] (α : Type) : Type 1 := Lib.Prog (Act T B R) α

/-- Stop with `e`. -/
def panic {T B R : Type} [Bracket B] {α : Type} (e : Panic) : Code T B R α :=
  .step (.panic e) Empty.elim

/-- Go on with a value, or stop. -/
def ofExcept {T B R : Type} [Bracket B] {α : Type} : Except Panic α → Code T B R α
  | .ok a => pure a
  | .error e => panic e

/-- `unwrap`. -/
def unwrap {T B R : Type} [Bracket B] {α : Type} : Option α → Code T B R α
  | some a => pure a
  | none => panic .unwrapNone

/-- `a - b` on `usize` in a build with overflow checks: where a release build would wrap, the
call stops. -/
def checkedSub {T B R : Type} [Bracket B] (a b : ℕ) : Code T B R ℕ :=
  if b ≤ a then pure (a - b) else panic .overflow

end Cxlalloc
