/-
Slab records in private caches (`cache.rs`, with the `cxl-limited` feature).

The record of a slab (`slab::Local`: next, owner, class and bitset) lies in memory that the
hardware does not keep coherent.  Every thread reads and writes its own copy of it, which it
fetches from memory when it has none; a copy may be fetched or evicted at any moment, and
`flush_cxl` evicts one on purpose.  A copy that was written goes back to memory whole when it is
evicted.  The detectable words, the stacks of a thread and the recovery records are as in
coherent memory.

Next to the memory, `CacheMem` notes which thread holds the title to a slab: the one that owned
or stole it last, unless it has been disowned since.  It also notes who has flushed a record and
not touched it since.
-/
import Cxlalloc.Lib.Pool
import Cxlalloc.Session

namespace Cxlalloc

open Lib
open Lib.Prog (lift hoist)
open Function

/-- A copy of a slab's record. -/
structure Copy (T B : Type) [Bracket B] where
  /-- `slab::Local::next`. -/
  next : Option (Index B)
  /-- `slab::Local::owner`. -/
  owner : Option T
  /-- `slab::Local::class`. -/
  sizeClass : B
  /-- `slab::Local::free`. -/
  bits : BitSet (Bracket.rows B)
  /-- It has been written since it was fetched. -/
  dirty : Bool

/-- The memory of a heap, and the caches before it. -/
structure CacheMem (T B : Type) [Bracket B] extends Mem T B (HeapState B) where
  copy : T → Index B → Option (Copy T B)
  /-- The thread whose `own` or `steal` is the last, with no `disown` since. -/
  title : Index B → Option T
  /-- The thread has flushed the record, and has not had a copy of it since. -/
  flushed : T → Index B → Bool
  /-- The blocks the application holds. -/
  live : List (Offset B)

/-- What happens in a memory with caches. -/
inductive CacheAct (T B : Type) [Bracket B] : Type → Type 1
  /-- A thread performs an access. -/
  | heap {β : Type} (t : T) (act : Access T B β) : CacheAct T B β
  /-- A block is returned to the application. -/
  | hand (offset : Offset B) : CacheAct T B Unit
  | fetch (t : T) (i : Index B) : CacheAct T B Unit
  | evict (t : T) (i : Index B) : CacheAct T B Unit

/-- What a thread calls, and what the hardware does of its own accord. -/
inductive CacheCall (T B : Type) [Bracket B] : Type 1
  | allocate (c : B)
  | free (offset : Offset B)
  | fetch (t : T) (i : Index B)
  | evict (t : T) (i : Index B)

namespace CacheMem

variable {T B β : Type} [Bracket B]

/-- The record as memory has it. -/
def stored (m : CacheMem T B) (i : Index B) : Copy T B :=
  { next := m.next i, owner := m.owner i, sizeClass := m.sizeClass i, bits := m.bits i,
    dirty := false }

/-- The record as thread `t` sees it. -/
def view (m : CacheMem T B) (t : T) (i : Index B) : Copy T B :=
  (m.copy t i).getD (m.stored i)

/-- The heap as thread `t` sees it. -/
def viewHeap (m : CacheMem T B) (t : T) : Heap T B :=
  { m.toHeap with
    next := fun i => (m.view t i).next
    owner := fun i => (m.view t i).owner
    sizeClass := fun i => (m.view t i).sizeClass
    bits := fun i => (m.view t i).bits }

variable [DecidableEq T]

/-- Replace the copy of thread `t`; `flushed` says whether it has got rid of it on purpose. -/
def setCopy (m : CacheMem T B) (t : T) (i : Index B) (c : Option (Copy T B)) (flushed : Bool) :
    CacheMem T B :=
  { m with
    copy := update m.copy t (update (m.copy t) i c)
    flushed := update m.flushed t (update (m.flushed t) i flushed) }

/-- Thread `t` has a copy from here on. -/
def fetch (m : CacheMem T B) (t : T) (i : Index B) : CacheMem T B :=
  m.setCopy t i (some (m.view t i)) false

/-- Thread `t` writes to its copy. -/
def write (m : CacheMem T B) (t : T) (i : Index B) (f : Copy T B → Copy T B) : CacheMem T B :=
  m.setCopy t i (some { f (m.view t i) with dirty := true }) false

/-- Thread `t` writes the owner, and with it the title. -/
def writeOwner (m : CacheMem T B) (t : T) (i : Index B) (v : Option T) : CacheMem T B :=
  { m.write t i fun c => { c with owner := v } with title := update m.title i v }

/-- A copy goes back to memory. -/
def writeBack (m : CacheMem T B) (i : Index B) (c : Copy T B) : CacheMem T B :=
  { m with
    next := update m.next i c.next
    owner := update m.owner i c.owner
    sizeClass := update m.sizeClass i c.sizeClass
    bits := update m.bits i c.bits }

/-- Thread `t` loses its copy, if it has one. -/
def evict (m : CacheMem T B) (t : T) (i : Index B) (flushed : Bool) : CacheMem T B :=
  match m.copy t i with
  | none => m.setCopy t i none flushed
  | some c => (if c.dirty then m.writeBack i c else m).setCopy t i none flushed

variable [DecidableEq B]

/-- What an access of thread `t` does. -/
def access (t : T) (β : Type) :
    Access T B β → CacheMem T B → Except Panic (β × CacheMem T B)
  | .loadNext i, m => .ok ((m.view t i).next, m.fetch t i)
  | .storeNext i v, m => .ok ((), m.write t i fun c => { c with next := v })
  | .loadOwner i, m => .ok ((m.view t i).owner, m.fetch t i)
  | .storeOwner i v, m => .ok ((), m.writeOwner t i v)
  | .loadClass i, m => .ok ((m.view t i).sizeClass, m.fetch t i)
  | .storeClass i v, m => .ok ((), m.write t i fun c => { c with sizeClass := v })
  | .loadBits i, m => .ok ((m.view t i).bits, m.fetch t i)
  | .storeBits i s, m => .ok ((), m.write t i fun c => { c with bits := s })
  | .flushCxl i, m => .ok ((), m.evict t i true)
  -- the records it reads may be fetched before it
  | .check p e, m => if p (m.viewHeap t) then .ok ((), m) else .error e
  | act, m =>
    match Mem.handle β act m.toMem with
    | .ok (b, m') => .ok (b, { m with toMem := m' })
    | .error e => .error e

/-- What happens, whoever's step it is. -/
def handle (β : Type) : CacheAct T B β → CacheMem T B → Except Panic (β × CacheMem T B)
  | .heap t act, m => access t _ act m
  | .hand offset, m => .ok ((), { m with live := offset :: m.live })
  | .fetch t i, m => .ok ((), m.fetch t i)
  | .evict t i, m => .ok ((), m.evict t i (m.flushed t i))

/-- Threads that allocate, and free each block once.  `none` is the hardware. -/
def system (cfg : Config) : System (Option T) (CacheAct T B) (CacheMem T B) Panic where
  Call := CacheCall T B
  code
    | some t, .allocate c => do
      match ← (Heap.allocateBlock cfg t c).hoist fun _ => .heap t with
      | some offset => lift (.hand offset)
      | none => pure ()
    | some t, .free offset => (Heap.free cfg t offset).hoist fun _ => .heap t
    | _, .fetch t i => lift (.fetch t i)
    | _, .evict t i => lift (.evict t i)
    | none, .allocate _ => pure ()
    | none, .free _ => pure ()
  legal a call m :=
    match call with
    | .allocate _ => a.isSome
    | .free offset => a.isSome ∧ offset ∈ m.live
    | .fetch _ _ => a = none
    | .evict _ _ => a = none
  enter _ call m :=
    match call with
    | .free offset => { m with live := m.live.erase offset }
    | _ => m
  handle _ := handle

instance (cfg : Config) (a : Option T) (call : (system (T := T) (B := B) cfg).Call)
    (m : CacheMem T B) : Decidable ((system cfg).legal a call m) :=
  match call with
  | .allocate _ => inferInstanceAs (Decidable (a.isSome = true))
  | .free offset => inferInstanceAs (Decidable (a.isSome = true ∧ offset ∈ m.live))
  | .fetch _ _ => inferInstanceAs (Decidable (a = none))
  | .evict _ _ => inferInstanceAs (Decidable (a = none))

omit [DecidableEq T] [DecidableEq B] in
/-- Zero bits, and nothing in any cache. -/
def zeroed : CacheMem T B :=
  { (Heap.zeroed : Heap T B) with
    help := fun _ _ => 0
    log := fun _ => none
    copy := fun _ _ => none
    title := fun _ => none
    flushed := fun _ _ => false
    live := [] }

omit [DecidableEq T] [DecidableEq B] in
/-- If thread `t` has to read a record from memory that names it as the owner, nobody else has
changes of it that were not written back. -/
def WrittenBack (m : CacheMem T B) (t : T) (i : Index B) : Prop :=
  m.copy t i = none → m.owner i = some t → ∀ u, ∀ c ∈ m.copy u i, c.dirty = false

omit [DecidableEq T] [DecidableEq B] in
/-- How thread `t` may access the record of a slab.

  * The owner is written by the thread that holds the title, or after that thread has flushed the
    record for good.
  * The other fields are written by a thread that does not see another owner. -/
def Respects (m : CacheMem T B) (t : T) : Access T B β → Prop
  | .loadNext i | .loadOwner i | .loadClass i | .loadBits i => m.WrittenBack t i
  | .storeNext i _ | .storeClass i _ | .storeBits i _ =>
    m.WrittenBack t i ∧ ∀ u ∈ (m.view t i).owner, u = t
  | .storeOwner i _ => ∀ u ∈ m.title i, u = t ∨ m.flushed u i = true
  | _ => True

/-- The records are handed over in order. -/
def Orderly : Guard (Option T) (CacheAct T B) (CacheMem T B) :=
  fun _ _ act m =>
    match act with
    | .heap t act => m.Respects t act
    | .fetch t i => m.WrittenBack t i
    | _ => True

instance [Fintype T] (m : CacheMem T B) (t : T) (i : Index B) : Decidable (m.WrittenBack t i) := by
  unfold WrittenBack
  infer_instance

instance [Fintype T] (m : CacheMem T B) (t : T) (act : Access T B β) :
    Decidable (m.Respects t act) := by
  apply Act.casesOn (motive := fun β act => Decidable (m.Respects t act)) act
  all_goals intros; unfold Respects; infer_instance

instance [Fintype T] (a : Option T) (β : Type) (act : CacheAct T B β) (m : CacheMem T B) :
    Decidable (Orderly a β act m) := by
  apply CacheAct.casesOn (motive := fun β act => Decidable (Orderly a β act m)) act
  all_goals intros; unfold Orderly; infer_instance

end CacheMem

end Cxlalloc
