/-
The interposed allocation functions of the preload library
(`cxlalloc-preload/src/lib.rs`).

The library stands in front of libc.  A request of at least `min_size` bytes goes to the
arena, a smaller one to libc; until the constructor has run, requests are served from a
static buffer that is never given back.  A pointer that comes back is dispatched by its
address.

The functions are programs over `Ev`: one constructor for each thing they do outside
themselves (a call into libc, a call into the arena, a reservation in the early buffer, a
write to `errno`, a copy).  `Process.handle` says what each does to the process.  It also
keeps a record of the pointers the allocators returned, and it stops with `misrouted` as
soon as a pointer is handed to another allocator than the one that returned it.
-/
import Cxlalloc.Lib.Prog
import Cxlalloc.Lib.Script
import Cxlalloc.Preload.DaxArena

namespace Cxlalloc.Preload

open Lib.Prog (lift)

/-- `PlacementPolicy`. -/
structure PlacementPolicy where
  minSize : ℕ

/-- `PlacementPolicy::uses_cxl`. -/
def PlacementPolicy.usesCxl (policy : PlacementPolicy) (size : ℕ) : Bool :=
  decide (policy.minSize ≤ size)

/-- `State`, without the resolved symbols. -/
structure State where
  policy : PlacementPolicy
  arena : Option DaxArena

/-- `State::arena_owns`. -/
def State.arenaOwns (state : State) (pointer : ℕ) : Bool :=
  state.arena.any fun arena => arena.owns pointer

/-- The values of `errno` that are set. -/
inductive Errno
  | enomem
  | einval
  deriving DecidableEq

/-- What an interposed function does outside itself, indexed by what it is answered. -/
inductive Ev : Type → Type 1
  /-- `state()`. -/
  | state : Ev (Option State)
  | setErrno (e : Errno) : Ev Unit
  | realMalloc (size : ℕ) : Ev ℕ
  | realCalloc (count size : ℕ) : Ev ℕ
  | realRealloc (pointer size : ℕ) : Ev ℕ
  | realFree (pointer : ℕ) : Ev Unit
  | realMemalign (alignment size : ℕ) : Ev ℕ
  | realMallocUsableSize (pointer : ℕ) : Ev ℕ
  | arenaAllocate (arena : DaxArena) (size alignment : ℕ) : Ev (Except ArenaError ℕ)
  | arenaDeallocate (arena : DaxArena) (pointer : ℕ) : Ev (Except ArenaError Unit)
  | arenaAllocationSize (arena : DaxArena) (pointer : ℕ) : Ev (Option ℕ)
  /-- `EARLY_OFFSET.fetch_update`: the offset reserved. -/
  | earlyReserve (size : ℕ) : Ev (Option ℕ)
  | scalarFill (destination value size : ℕ) : Ev Unit
  | scalarCopy (destination source size : ℕ) : Ev Unit

/-- A program of the library. -/
abbrev Code (α : Type) : Type 1 := Lib.Prog Ev α

/-- `EARLY_SIZE`. -/
def earlySize : ℕ := 8 * 2 ^ 20

/-- `usize::checked_mul`. -/
def checkedMul (a b : ℕ) : Option ℕ :=
  if a * b < usizeSize then some (a * b) else none

/-- What is fixed before the library is loaded. -/
structure Platform where
  /-- `early_buf_base`. -/
  earlyBase : ℕ
  /-- `page_size`. -/
  pageSize : ℕ
  earlyBase_pos : 0 < earlyBase

namespace Platform

variable (platform : Platform)

/-- `is_early_pointer`. -/
def isEarlyPointer (pointer : ℕ) : Bool :=
  decide (platform.earlyBase ≤ pointer) && decide (pointer < platform.earlyBase + earlySize)

/-- `early_malloc`. -/
def earlyMalloc (size : ℕ) : Code ℕ :=
  let alignment := 16
  match (checkedAdd (max size alignment) (alignment - 1)).map (maskDown · alignment) with
  | none => pure 0
  | some size => do
    match ← lift (.earlyReserve size) with
    | none => pure 0
    | some offset => pure (platform.earlyBase + offset)

/-! ### Routed allocation -/

/-- Set `errno` and answer null. -/
def fail (e : Errno) : Code ℕ := do
  lift (.setErrno e)
  pure 0

/-- `routed_malloc`. -/
def routedMalloc (size : ℕ) (state : State) : Code ℕ :=
  if !state.policy.usesCxl size then lift (.realMalloc size)
  else
    match state.arena with
    | none => fail .enomem
    | some arena => do
      match ← lift (.arenaAllocate arena size 16) with
      | .ok pointer => pure pointer
      | .error _ => fail .enomem

/-- `routed_aligned_alloc`. -/
def routedAlignedAlloc (alignment size : ℕ) (state : State) : Code ℕ :=
  if !isPowerOfTwo alignment then fail .einval
  else if !state.policy.usesCxl size then lift (.realMemalign alignment size)
  else
    match state.arena with
    | none => fail .enomem
    | some arena => do
      match ← lift (.arenaAllocate arena size alignment) with
      | .ok pointer => pure pointer
      | .error .invalidAlignment => fail .einval
      | .error _ => fail .enomem

/-- `routed_valloc`. -/
def routedValloc (size : ℕ) (state : State) : Code ℕ :=
  routedAlignedAlloc platform.pageSize size state

/-- `routed_free`. -/
def routedFree (pointer : ℕ) (state : State) : Code Unit :=
  if pointer = 0 ∨ platform.isEarlyPointer pointer then pure ()
  else
    match state.arena.filter fun arena => arena.owns pointer with
    | some arena => do
      match ← lift (.arenaDeallocate arena pointer) with
      | .ok () => pure ()
      | .error _ => lift (.setErrno .einval)
    | none => lift (.realFree pointer)

/-- `routed_calloc`. -/
def routedCalloc (count size : ℕ) (state : State) : Code ℕ :=
  match checkedMul count size with
  | none => fail .enomem
  | some total =>
    if !state.policy.usesCxl total then lift (.realCalloc count size)
    else do
      let pointer ← routedMalloc total state
      if pointer ≠ 0 then
        lift (.scalarFill pointer 0 total)
      pure pointer

/-- The end of `routed_realloc`: move to a new place of the size asked for. -/
def moveTo (pointer oldSize size : ℕ) (state : State) : Code ℕ := do
  let newPointer ← routedMalloc size state
  if newPointer = 0 then pure 0
  else
    lift (.scalarCopy newPointer pointer (min oldSize size))
    routedFree platform pointer state
    pure newPointer

/-- `routed_realloc`. -/
def routedRealloc (pointer size : ℕ) (state : State) : Code ℕ :=
  if pointer = 0 then routedMalloc size state
  else if size = 0 then do
    routedFree platform pointer state
    pure 0
  else if platform.isEarlyPointer pointer then do
    let newPointer ← routedMalloc size state
    if newPointer ≠ 0 then
      let oldSize := earlySize - (pointer - platform.earlyBase)
      lift (.scalarCopy newPointer pointer (min size oldSize))
    pure newPointer
  else
    match state.arena.filter fun arena => arena.owns pointer with
    | some arena => do
      let oldSize := (← lift (.arenaAllocationSize arena pointer)).getD 0
      moveTo platform pointer oldSize size state
    | none =>
      if !state.policy.usesCxl size then lift (.realRealloc pointer size)
      else do
        let oldSize ← lift (.realMallocUsableSize pointer)
        moveTo platform pointer oldSize size state

/-! ### Interposed functions -/

/-- `malloc`. -/
def malloc (size : ℕ) : Code ℕ := do
  match ← lift .state with
  | some state => routedMalloc size state
  | none => earlyMalloc platform size

/-- `free`. -/
def free (pointer : ℕ) : Code Unit := do
  match ← lift .state with
  | some state => routedFree platform pointer state
  | none => pure ()

/-- `calloc`. -/
def calloc (count size : ℕ) : Code ℕ := do
  match ← lift .state with
  | some state => routedCalloc count size state
  | none =>
    let total := (checkedMul count size).getD (usizeSize - 1)
    let pointer ← earlyMalloc platform total
    if pointer ≠ 0 then
      lift (.scalarFill pointer 0 total)
    pure pointer

/-- `realloc`. -/
def realloc (pointer size : ℕ) : Code ℕ := do
  match ← lift .state with
  | some state => routedRealloc platform pointer size state
  | none => pure 0

/-- `memalign`. -/
def memalign (alignment size : ℕ) : Code ℕ := do
  match ← lift .state with
  | some state => routedAlignedAlloc alignment size state
  | none => earlyMalloc platform size

/-- `posix_memalign`: what is written to `output`, or the error it returns. -/
def posixMemalign (output alignment size : ℕ) : Code (Except Errno ℕ) :=
  if output = 0 ∨ alignment < 8 ∨ !isPowerOfTwo alignment then pure (.error .einval)
  else do
    let pointer ← memalign platform alignment size
    if pointer = 0 then pure (.error .enomem) else pure (.ok pointer)

/-- `aligned_alloc`. -/
def alignedAlloc (alignment size : ℕ) : Code ℕ :=
  if alignment = 0 ∨ size % alignment ≠ 0 then fail .einval
  else memalign platform alignment size

/-- `valloc`. -/
def valloc (size : ℕ) : Code ℕ := do
  match ← lift .state with
  | some state => routedValloc platform size state
  | none => earlyMalloc platform size

/-- The size `pvalloc` asks for. -/
def pageRounded (size : ℕ) : Option ℕ :=
  (checkedAdd size (platform.pageSize - 1)).map (maskDown · platform.pageSize)

/-- `pvalloc`. -/
def pvalloc (size : ℕ) : Code ℕ :=
  match platform.pageRounded size with
  | none => fail .enomem
  | some rounded => valloc platform rounded

/-- `malloc_usable_size`. -/
def mallocUsableSize (pointer : ℕ) : Code ℕ :=
  if pointer = 0 ∨ platform.isEarlyPointer pointer then pure 0
  else do
    match ← lift .state with
    | none => pure 0
    | some state =>
      match state.arena.filter fun arena => arena.owns pointer with
      | some arena => do
        pure ((← lift (.arenaAllocationSize arena pointer)).getD 0)
      | none => lift (.realMallocUsableSize pointer)

end Platform

/-! ### The process around the library -/

/-- The libc behind the library, with a state of its own: the functions of `RealAlloc`
that are called, and the lock of the arena. -/
structure RealAlloc (σ : Type) where
  malloc : ℕ → σ → ℕ × σ
  calloc : ℕ → ℕ → σ → ℕ × σ
  realloc : ℕ → ℕ → σ → ℕ × σ
  free : ℕ → σ → σ
  memalign : ℕ → ℕ → σ → ℕ × σ
  mallocUsableSize : ℕ → σ → ℕ × σ
  lock : σ → Except ArenaError Unit × σ

/-- The allocators a pointer can come from. -/
inductive Producer
  | early
  | libc
  | arena
  deriving DecidableEq

/-- A pointer that was handed to an allocator that did not return it, or a search that
did not end. -/
inductive Fault
  | misrouted (pointer : ℕ) (receiver : Producer)
  | diverge
  deriving DecidableEq

/-- A process with the library loaded: the memory map keeps the three allocators apart. -/
structure Process (σ : Type) where
  platform : Platform
  /-- What `State::from_env` answers. -/
  state : State
  real : RealAlloc σ
  /-- Pointers of libc are outside the arena and outside the early buffer. -/
  libc_apart : ∀ p s s', p ≠ 0 →
    (∃ size, real.malloc size s = (p, s')) ∨ (∃ count size, real.calloc count size s = (p, s')) ∨
      (∃ q size, real.realloc q size s = (p, s')) ∨
      (∃ alignment size, real.memalign alignment size s = (p, s')) →
    state.arenaOwns p = false ∧ platform.isEarlyPointer p = false
  early_apart : ∀ p, platform.isEarlyPointer p = true → state.arenaOwns p = false

/-- What changes while the process runs. -/
structure World (σ : Type) where
  /-- `INITIALIZED`. -/
  initialized : Bool
  /-- `EARLY_OFFSET`. -/
  earlyOffset : ℕ
  extents : Extents
  libc : σ
  errno : Option Errno
  /-- The pointers that were returned so far, and by which allocator, newest first. -/
  returned : List (ℕ × Producer)

/-- Which allocator returned a pointer last. -/
def World.producer {σ : Type} (w : World σ) (pointer : ℕ) : Option Producer :=
  w.returned.lookup pointer

namespace Process

variable {σ : Type} (process : Process σ)

/-- An allocator returned a pointer, unless it is null. -/
def produce (w : World σ) (pointer : ℕ) (source : Producer) : World σ :=
  if pointer = 0 then w
  else { w with returned := (pointer, source) :: w.returned }

/-- Go on if a pointer came from the allocator it is handed to. -/
def handTo {α : Type} (w : World σ) (receiver : Producer) (pointer : ℕ) (go : Except Fault α) :
    Except Fault α :=
  if w.producer pointer = some receiver then go else .error (.misrouted pointer receiver)

/-- What each event does. -/
def handle (β : Type) : Ev β → World σ → Except Fault (β × World σ)
  | .state, w => .ok (if w.initialized then some process.state else none, w)
  | .setErrno e, w => .ok ((), { w with errno := some e })
  | .realMalloc size, w =>
    let (pointer, libc) := process.real.malloc size w.libc
    .ok (pointer, produce { w with libc := libc } pointer .libc)
  | .realCalloc count size, w =>
    let (pointer, libc) := process.real.calloc count size w.libc
    .ok (pointer, produce { w with libc := libc } pointer .libc)
  | .realRealloc pointer size, w =>
    handTo w .libc pointer <|
      let (pointer, libc) := process.real.realloc pointer size w.libc
      .ok (pointer, produce { w with libc := libc } pointer .libc)
  | .realFree pointer, w =>
    handTo w .libc pointer <| .ok ((), { w with libc := process.real.free pointer w.libc })
  | .realMemalign alignment size, w =>
    let (pointer, libc) := process.real.memalign alignment size w.libc
    .ok (pointer, produce { w with libc := libc } pointer .libc)
  | .realMallocUsableSize pointer, w =>
    handTo w .libc pointer <|
      let (size, libc) := process.real.mallocUsableSize pointer w.libc
      .ok (size, { w with libc := libc })
  | .arenaAllocate arena size alignment, w =>
    let (lock, libc) := process.real.lock w.libc
    match arena.allocate lock size alignment w.extents with
    | none => .error .diverge
    | some (.error e) => .ok (.error e, { w with libc := libc })
    | some (.ok (pointer, extents)) =>
      .ok (.ok pointer, produce { w with libc := libc, extents := extents } pointer .arena)
  | .arenaDeallocate arena pointer, w =>
    handTo w .arena pointer <|
      let (lock, libc) := process.real.lock w.libc
      match arena.deallocate lock pointer w.extents with
      | .error e => .ok (.error e, { w with libc := libc })
      | .ok extents => .ok (.ok (), { w with libc := libc, extents := extents })
  | .arenaAllocationSize arena pointer, w =>
    handTo w .arena pointer <|
      let (lock, libc) := process.real.lock w.libc
      .ok (arena.allocationSize lock pointer w.extents, { w with libc := libc })
  | .earlyReserve size, w =>
    match (checkedAdd w.earlyOffset size).filter fun stop => decide (stop ≤ earlySize) with
    | none => .ok (none, w)
    | some stop =>
      .ok (some w.earlyOffset,
        produce { w with earlyOffset := stop } (process.platform.earlyBase + w.earlyOffset)
          .early)
  | .scalarFill _ _ _, w => .ok ((), w)
  | .scalarCopy _ _ _, w => .ok ((), w)

end Process

/-- A call of an interposed function. -/
inductive Api
  | malloc (size : ℕ)
  | calloc (count size : ℕ)
  | realloc (pointer size : ℕ)
  | memalign (alignment size : ℕ)
  | alignedAlloc (alignment size : ℕ)
  | posixMemalign (output alignment size : ℕ)
  | valloc (size : ℕ)
  | pvalloc (size : ℕ)
  | free (pointer : ℕ)
  | mallocUsableSize (pointer : ℕ)

namespace Api

variable (platform : Platform)

/-- The pointer a call answers; null for a call that answers none. -/
def run : Api → Code ℕ
  | .malloc size => platform.malloc size
  | .calloc count size => platform.calloc count size
  | .realloc pointer size => platform.realloc pointer size
  | .memalign alignment size => platform.memalign alignment size
  | .alignedAlloc alignment size => platform.alignedAlloc alignment size
  | .posixMemalign output alignment size => do
    match ← platform.posixMemalign output alignment size with
    | .ok pointer => pure pointer
    | .error _ => pure 0
  | .valloc size => platform.valloc size
  | .pvalloc size => platform.pvalloc size
  | .free pointer => do
    platform.free pointer
    pure 0
  | .mallocUsableSize pointer => do
    let _ ← platform.mallocUsableSize pointer
    pure 0

/-- The size a call asks for, if it asks for one that can be expressed. -/
def effectiveSize : Api → Option ℕ
  | .malloc size => some size
  | .calloc count size => checkedMul count size
  | .realloc _ size => some size
  | .memalign _ size => some size
  | .alignedAlloc _ size => some size
  | .posixMemalign _ _ size => some size
  | .valloc size => some size
  | .pvalloc size => platform.pageRounded size
  | .free _ => none
  | .mallocUsableSize _ => none

/-- The pointer a call passes in; null for none. -/
def argument : Api → ℕ
  | .realloc pointer _ => pointer
  | .free pointer => pointer
  | .mallocUsableSize pointer => pointer
  | _ => 0

/-- Whether the pointer passed in is gone when the call has answered `result`. -/
def consumes (result : ℕ) : Api → Bool
  | .free _ => true
  | .realloc _ size => decide (size = 0 ∨ result ≠ 0)
  | _ => false

end Api

/-- A process and the pointers its callers hold. -/
structure PreloadSession (σ : Type) where
  world : World σ
  live : Finset ℕ

/-- A step of the process: the constructor runs, or a call of an interposed function. -/
inductive PreloadStep
  | init
  | call (api : Api)

namespace PreloadSession

variable {σ : Type} (process : Process σ)

/-- Before the constructor has run. -/
def fresh (libc : σ) : PreloadSession σ where
  world :=
    { initialized := false, earlyOffset := 0, extents := .empty, libc := libc, errno := none,
      returned := [] }
  live := ∅

/-- Callers pass null or a pointer they hold. -/
def Legal (s : PreloadSession σ) : PreloadStep → Prop
  | .init => True
  | .call api => api.argument = 0 ∨ api.argument ∈ s.live

instance (s : PreloadSession σ) (a : PreloadStep) : Decidable (s.Legal a) :=
  match a with
  | .init => inferInstanceAs (Decidable True)
  | .call api => inferInstanceAs (Decidable (api.argument = 0 ∨ api.argument ∈ s.live))

/-- Run one step. -/
def step (s : PreloadSession σ) : PreloadStep → Except Fault (PreloadSession σ)
  | .init => .ok { s with world := { s.world with initialized := true } }
  | .call api =>
    match (api.run process.platform).exec process.handle s.world with
    | .error e => .error e
    | .ok (result, world) =>
      let live := if api.consumes result then s.live.erase api.argument else s.live
      .ok { world := world, live := if result = 0 then live else insert result live }

/-- One legal step that was completed. -/
def Step (s s' : PreloadSession σ) : Prop :=
  ∃ a, s.Legal a ∧ s.step process a = .ok s'

/-- Run a script of legal steps; `none` if one of them is not legal or fails. -/
def script (as : List PreloadStep) (s : PreloadSession σ) : Option (PreloadSession σ) :=
  as.foldlM (Lib.attempt Legal (step process)) s

end PreloadSession

end Cxlalloc.Preload
