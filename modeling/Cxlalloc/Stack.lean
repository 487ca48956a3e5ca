/-
The slab stacks (`slab/stack.rs`, `slab/local.rs`, `slab.rs`).

A `stack::Local` is a chain of slabs of one thread: `head` and a separately kept
`len`.  The global stack is a chain behind one detectable word.  All chains are
threaded through the one `next` field of a slab.
-/
import Cxlalloc.Cas

namespace Cxlalloc

open Lib.Prog (lift)

/-- The knobs of `Raw::builder` and the build.  `retry` bounds how many failed
compare-exchanges a run of the model follows. -/
structure Config where
  /-- `COUNT_CACHE_SLAB`. -/
  cacheLocal : ℕ
  /-- `BATCH_GLOBAL_PUSH`. -/
  batchGlobal : ℕ
  /-- `BATCH_BUMP_POP`. -/
  batchBump : ℕ
  /-- `cfg!(any(feature = "validate", debug_assertions))`. -/
  validate : Bool
  retry : ℕ

/-- The knobs as they are when no builder sets them. -/
def Config.initial (validate : Bool) : Config :=
  { cacheLocal := 0, batchGlobal := 1, batchBump := 1, validate := validate, retry := 0 }

variable {T B R : Type} [Bracket B]

/-- More slabs than a 32-bit index can name: a walk this long goes round in circles. -/
def walkFuel : ℕ := 2 ^ 32

/-! ### `slab::Local` -/

namespace Slab

variable [DecidableEq T]

/-- `Local::own`. -/
def own (cfg : Config) (t : T) (i : Index B) : Code T B R Unit := do
  if cfg.validate then
    if (← lift (.loadOwner i)) ≠ none then panic .ownOwned
  lift (.storeOwner i (some t))

/-- `Local::steal`. -/
def steal (t : T) (i : Index B) : Code T B R Unit :=
  lift (.storeOwner i (some t))

/-- `Local::disown`. -/
def disown (cfg : Config) (t : T) (i : Index B) : Code T B R Unit := do
  if cfg.validate then
    if (← lift (.loadOwner i)) ≠ some t then panic .disownForeign
  lift (.storeOwner i none)

/-- `Slab::link`, over the `n` indices from `i` on. -/
def link (cfg : Config) (t : T) (head : Option (Index B)) : ℕ → Index B → Code T B R Unit
  | 0, _ => pure ()
  | n + 1, i => do
    own cfg t i
    lift (.storeNext i (if n = 0 then head else some i.succ))
    link cfg t head n i.succ

end Slab

/-! ### `stack::Local` -/

namespace Stack

/-- `Local::peek`. -/
def peek (s : StackId T B) : Code T B R (Option (Index B)) :=
  lift (.loadHead s)

/-- `Local::set`. -/
def set (s : StackId T B) (head : Option (Index B)) (len : ℕ) : Code T B R Unit := do
  lift (.storeHead s head)
  lift (.storeLen s len)

/-- `Local::pop`. -/
def pop (s : StackId T B) : Code T B R (Option (Index B)) := do
  match ← lift (.loadHead s) with
  | none => pure none
  | some head => do
    lift (.storeHead s (← lift (.loadNext head)))
    lift (.storeLen s (← checkedSub (← lift (.loadLen s)) 1))
    pure (some head)

/-- `Local::push`. -/
def push (s : StackId T B) (index : Index B) : Code T B R Unit := do
  lift (.storeNext index (← lift (.loadHead s)))
  lift (.storeHead s (some index))
  lift (.storeLen s ((← lift (.loadLen s)) + 1))

/-- `trace(head).count()`, for at most `fuel` slabs. -/
def count : ℕ → Option (Index B) → Code T B R ℕ
  | 0, _ => panic .diverge
  | _ + 1, none => pure 0
  | fuel + 1, some i => do
    let rest ← count fuel (← lift (.loadNext i))
    pure (rest + 1)

/-- `Local::recover_len`. -/
def recoverLen (s : StackId T B) : Code T B R Unit := do
  lift (.storeLen s (← count walkFuel (← lift (.loadHead s))))

/-- `Local::recover_push`. -/
def recoverPush (s : StackId T B) (index : Index B) : Code T B R Unit := do
  if (← lift (.loadHead s)) ≠ some index then push s index
  recoverLen s

end Stack

/-! ### The global stack -/

namespace Global

variable [FromState B R]

/-- `Global::push`. -/
def push (cfg : Config) (t : T) (head tail : Index B) : Code T B R Unit := do
  let r ← Detectable.update cfg.retry t .global fun old version => do
    lift (.storeNext tail old)
    pure (some (some head, .unsizedToGlobal head version))
  let _ ← unwrap r

/-- `Global::pop`. -/
def pop (cfg : Config) (t : T) : Code T B R (Option (Index B)) := do
  let r ← Detectable.update cfg.retry t .global fun old version =>
    match old with
    | none => pure none
    | some index => do
      let new ← lift (.loadNext index)
      pure (some (new, .globalToUnsized index version))
  pure r.join

/-- `Global::is_empty`. -/
def isEmpty (t : T) : Code T B R Bool := do
  let head ← Detectable.load t .global
  pure head.isNone

end Global

end Cxlalloc
