/-
The slab heap (`heap.rs`): allocation, free, and every transition of a slab.

A slab of a bracket is in one of these places.

  * `global`: on the chain behind `Shared::free`, open to every thread.
  * `unsized`: on the unsized stack of the one thread that owns it.
  * `sized`: on the stack of its size class at its owner, with a free block.
  * detached: on no chain, because its last free block was handed out.  It may still
    name its last owner, or have been disowned.

A block that is freed by the owner goes back to the bitset; one freed by anybody else
only decrements the remote counter, and whoever takes the counter to zero claims the
slab.
-/
import Cxlalloc.Stack

namespace Cxlalloc

open Lib.Prog (lift)

variable {T B R : Type} [Bracket B]

/-! ### `Owned::is_valid` -/

namespace Heap

/-- Follow a chain for at most `n` slabs. -/
def traceN (h : Heap T B) : ℕ → Option (Index B) → List (Index B)
  | 0, _ => []
  | _ + 1, none => []
  | n + 1, some i => i :: traceN h n (h.next i)

/-- `stack::Local::is_valid`: the loop stops once it has counted past `len`. -/
def stackIsValid (h : Heap T B) (s : StackId T B) : Bool :=
  (h.traceN (h.len s + 1) (h.head s)).length == h.len s

/-- The test of one chain: no slab seen before, and each slab as it should be.
Returns the slabs seen, or `none` once a test failed. -/
def chainIsValid (ok : Index B → Bool) :
    List (Index B) → List (Index B) → Option (List (Index B))
  | [], seen => some seen
  | i :: rest, seen =>
    if i ∈ seen then none
    else if ok i then chainIsValid ok rest (i :: seen)
    else none

/-- One sized stack of `Owned::is_valid`. -/
def sizedIsValid [DecidableEq T] [DecidableEq B] (h : Heap T B) (t : T) (c : B)
    (seen : List (Index B)) : Option (List (Index B)) :=
  if h.stackIsValid (.sized t c) then
    chainIsValid
      (fun i => decide (0 < (h.bits i).len) && decide (h.sizeClass i = c) &&
        decide (h.owner i = some t))
      (h.traceN (h.len (.sized t c)) (h.head (.sized t c))) seen
  else none

/-- `Owned::is_valid`. -/
def isValid [DecidableEq T] [DecidableEq B] (t : T) (h : Heap T B) : Bool :=
  if h.stackIsValid (.unsized t) then
    match chainIsValid (fun i => decide (h.owner i = some t))
        (h.traceN (h.len (.unsized t)) (h.head (.unsized t))) [] with
    | none => false
    | some seen =>
      (Bracket.classes.foldlM (fun seen c => h.sizedIsValid t c seen) seen).isSome
  else false

end Heap

namespace Heap

variable [DecidableEq T] [DecidableEq B] [FromState B R]

/-- `context.log(..)`. -/
def log (t : T) (state : HeapState B) : Code T B R Unit :=
  lift (.storeLog t (some (FromState.fromState state)))

/-- `validate!(self.owned.is_valid(context, &self.slabs))`. -/
def validateOwned (cfg : Config) (t : T) : Code T B R Unit :=
  if cfg.validate then lift (.check (isValid t) .invalidOwned) else pure ()

/-! ### `Owned` -/

/-- `Owned::unsized_to_sized`. -/
def unsizedToSized (t : T) (c : B) : Code T B R Bool := do
  match ← Stack.peek (.unsized t) with
  | none => pure false
  | some index => do
    let next ← lift (.loadNext index)
    log t (.unsizedToSized next c)
    lift (.storeClass index c)
    lift (.storeBits index ((← lift (.loadBits index)).fill (Bracket.count c)))
    Stack.push (.sized t c) index
    Detectable.store t (.remote index) ⟨Bracket.count c⟩
    let count ← lift (.loadLen (.unsized t))
    Stack.set (.unsized t) next (← checkedSub count 1)
    pure true

/-- The search of `Owned::sized_to_unsized` for the slab before `index`. -/
def findPrev (index : Index B) : ℕ → Index B → Code T B R (Index B)
  | 0, _ => panic .diverge
  | fuel + 1, walk => do
    match ← lift (.loadNext walk) with
    | none => panic .removeMissing
    | some next => if next = index then pure walk else findPrev index fuel next

/-- `Owned::sized_to_unsized`.  The branch that unlinks behind another slab leaves
`len` as it is. -/
def sizedToUnsized (t : T) (c : B) (index : Index B) : Code T B R Unit := do
  let next ← lift (.loadNext index)
  let walk ← unwrap (← Stack.peek (.sized t c))
  if walk = index then
    let count ← lift (.loadLen (.sized t c))
    Stack.set (.sized t c) next (← checkedSub count 1)
  else
    let prev ← findPrev index walkFuel walk
    lift (.storeNext prev next)
  Stack.push (.unsized t) index

/-! ### `Shared` -/

/-- `Index::add`, or its panic. -/
def addIndex (i : Index B) (count : ℕ) : Code T B R (Index B) :=
  match i.add count with
  | some j => pure j
  | none => panic .indexOverflow

/-- `Shared::bump`: the first index of the range and its end. -/
def bumpRange (cfg : Config) (t : T) : Code T B R (Index B × Index B) := do
  let batch := cfg.batchBump % 2 ^ 32
  let r ← Detectable.update cfg.retry t .bump fun old version => do
    let new ← addIndex (old.getD .min) batch
    pure (some (some new, .bumpToUnsized old version))
  let start := (← unwrap r).getD .min
  pure (start, ← addIndex start batch)

/-- `Shared::pop`. -/
def sharedPop (cfg : Config) (t : T) : Code T B R (Option (Index B)) := do
  if ← Global.isEmpty t then pure none else Global.pop cfg t

/-! ### `Heap` -/

/-- `Heap::detach`. -/
def detach (cfg : Config) (t : T) (c : B) (index : Index B) : Code T B R Unit := do
  lift (.record t (.detach c))
  let rem ← Detectable.load t (.remote index)
  if rem.free < Bracket.count c then
    lift (.record t (.disown c))
    Slab.disown cfg t index
    lift (.flushCxl index)
  else
    pure ()

/-- `Heap::pop`. -/
def pop (cfg : Config) (t : T) (c : B) (index : Index B) (block : Bit) :
    Code T B R (Offset B) := do
  lift (.record t (.allocate (Bracket.size c)))
  let free ← ofExcept ((← lift (.loadBits index)).unset cfg.validate block)
  lift (.storeBits index free)
  if free.isEmpty then
    let last ← unwrap (← Stack.pop (.sized t c))
    detach cfg t c last
  pure (Offset.fromBlock c index block)

/-- `Heap::allocate`. -/
def allocate (cfg : Config) (t : T) (c : B) : Code T B R (Option (Index B)) := do
  if Bracket.isZero c then
    pure none
  else if ← unsizedToSized t c then
    lift (.record t (.unsizedToSized c))
    validateOwned cfg t
    Stack.peek (.sized t c)
  else
    match ← sharedPop cfg t with
    | some index => do
      lift (.record t .globalToUnsized)
      Slab.own cfg t index
      Stack.push (.unsized t) index
    | none => do
      let (start, finish) ← bumpRange cfg t
      lift (.record t .bump)
      Slab.link cfg t none (finish.value - start.value) start
      Stack.set (.unsized t) (some start) cfg.batchBump
    let _ ← unsizedToSized t c
    lift (.record t (.unsizedToSized c))
    validateOwned cfg t
    Stack.peek (.sized t c)

/-- `Heap::peek`. -/
def peek (cfg : Config) (t : T) (c : B) : Code T B R (Option (Index B × Bit)) := do
  let index ← match ← Stack.peek (.sized t c) with
    | some index => pure (some index)
    | none => allocate cfg t c
  match index with
  | none => pure none
  | some index => do
    let free ← lift (.loadBits index)
    pure (some (index, free.peekUnchecked))

/-- `Heap::attach`. -/
def attach (t : T) (c : B) (index : Index B) : Code T B R Unit := do
  lift (.record t (.attach c))
  Stack.push (.sized t c) index

/-- `trace(..).inspect(disown).take(batch)` of `Heap::unsized_to_global`. -/
def takeBatch (cfg : Config) (t : T) : ℕ → Option (Index B) → Code T B R (List (Index B))
  | 0, _ => pure []
  | _ + 1, none => pure []
  | n + 1, some i => do
    let next ← lift (.loadNext i)
    -- Not strictly necessary, but helps debugging
    if cfg.validate then Slab.disown cfg t i
    let rest ← takeBatch cfg t n next
    pure (i :: rest)

/-- `trace(Some(head)).take(batch).for_each(flush_cxl)`. -/
def flushBatch : ℕ → Option (Index B) → Code T B R Unit
  | 0, _ => pure ()
  | _ + 1, none => pure ()
  | n + 1, some i => do
    let next ← lift (.loadNext i)
    lift (.flushCxl i)
    flushBatch n next

/-- `Heap::unsized_to_global`. -/
def unsizedToGlobal (cfg : Config) (t : T) : Code T B R Unit := do
  let count ← lift (.loadLen (.unsized t))
  if count ≤ cfg.cacheLocal then
    pure ()
  else
    lift (.record t .unsizedToGlobal)
    let batch := cfg.batchGlobal
    let taken ← takeBatch cfg t batch (← Stack.peek (.unsized t))
    let head ← unwrap taken.head?
    let tail := taken.tail.getLast?.getD head
    let next ← lift (.loadNext tail)
    log t (.unsizedToGlobalSave head)
    Stack.set (.unsized t) next (← checkedSub count batch)
    flushBatch batch (some head)
    Global.push cfg t head tail

/-- `Heap::claim`. -/
def claim (cfg : Config) (t : T) (c : B) (index : Index B) : Code T B R Unit := do
  lift (.record t (.claim c))
  Slab.steal t index
  Stack.push (.unsized t) index
  validateOwned cfg t
  unsizedToGlobal cfg t

/-- `Heap::free_remote`. -/
def freeRemote (cfg : Config) (t : T) (index : Index B) : Code T B R Unit := do
  let c ← lift (.loadClass index)
  lift (.record t (.free (Bracket.size c)))
  let r ← Detectable.update cfg.retry t (.remote index) fun rem version => do
    if cfg.validate && rem.free == 0 then panic .remoteExhausted
    let next ← checkedSub rem.free 1
    pure (some (⟨next⟩, .remote index version (rem.free == 1)))
  let rem ← unwrap r
  if rem.free = 1 then claim cfg t c index

/-- `Heap::free`. -/
def free (cfg : Config) (t : T) (offset : Offset B) : Code T B R Unit := do
  let index ← unwrap offset.intoIndex
  if (← lift (.loadOwner index)) ≠ some t then
    freeRemote cfg t index
  else
    let c ← lift (.loadClass index)
    let block ← (match offset.intoBlock c with
      | some block => pure block
      | none => panic .divideByZero : Code T B R Bit)
    lift (.record t (.free (Bracket.size c)))
    log t (.applicationToSized index block)
    let free ← ofExcept ((← lift (.loadBits index)).set cfg.validate block)
    lift (.storeBits index free)
    let count := free.len
    -- Attach if not empty
    if count = 1 then attach t c index
    -- Return to unsized if full
    if count < Bracket.count c then
      pure ()
    else
      sizedToUnsized t c index
      validateOwned cfg t
      lift (.record t (.sizedToUnsized c))
      unsizedToGlobal cfg t

end Heap

end Cxlalloc
