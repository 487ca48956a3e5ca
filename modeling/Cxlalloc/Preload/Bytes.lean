/-
The preload library over a memory of bytes.

`Process.handle` leaves memory out.  Here the part of the state that belongs to libc comes
with the bytes of the process, so that a copy has an effect and libc, too, can move bytes
about.  What libc does is fixed only as far as its contract goes: `Contract` says which
blocks it has handed out, that they keep clear of each other and of the arena, and which
bytes it leaves alone.

A caller may also write to the blocks it holds, between calls.
-/
import Cxlalloc.Preload.Interpose

namespace Cxlalloc.Preload

open Function

/-- The bytes of the process, by address. -/
abbrev Bytes := ℕ → UInt8

namespace Bytes

/-- `scalar_fill`. -/
def scalarFill (destination : ℕ) (value : UInt8) (size : ℕ) (bytes : Bytes) : Bytes :=
  (List.range size).foldl (fun bytes index => update bytes (destination + index) value) bytes

/-- `scalar_copy`. -/
def scalarCopy (destination source size : ℕ) (bytes : Bytes) : Bytes :=
  (List.range size).foldl
    (fun bytes index => update bytes (destination + index) (bytes (source + index))) bytes

end Bytes

variable {τ : Type}

/-- The bytes of a world. -/
def World.bytes (w : World (τ × Bytes)) : Bytes :=
  w.libc.2

/-- The world with other bytes. -/
def World.withBytes (w : World (τ × Bytes)) (bytes : Bytes) : World (τ × Bytes) :=
  { w with libc := (w.libc.1, bytes) }

/-- What each event does, to the bytes as well. -/
def Process.handleBytes (process : Process (τ × Bytes)) (β : Type) :
    Ev β → World (τ × Bytes) → Except Fault (β × World (τ × Bytes))
  | .scalarFill destination value size, w =>
    .ok ((), w.withBytes (w.bytes.scalarFill destination (UInt8.ofNat value) size))
  | .scalarCopy destination source size, w =>
    .ok ((), w.withBytes (w.bytes.scalarCopy destination source size))
  | .state, w => process.handle _ .state w
  | .setErrno e, w => process.handle _ (.setErrno e) w
  | .realMalloc size, w => process.handle _ (.realMalloc size) w
  | .realCalloc count size, w => process.handle _ (.realCalloc count size) w
  | .realRealloc pointer size, w => process.handle _ (.realRealloc pointer size) w
  | .realFree pointer, w => process.handle _ (.realFree pointer) w
  | .realMemalign alignment size, w => process.handle _ (.realMemalign alignment size) w
  | .realMallocUsableSize pointer, w => process.handle _ (.realMallocUsableSize pointer) w
  | .arenaAllocate arena size alignment, w =>
    process.handle _ (.arenaAllocate arena size alignment) w
  | .arenaDeallocate arena pointer, w => process.handle _ (.arenaDeallocate arena pointer) w
  | .arenaAllocationSize arena pointer, w =>
    process.handle _ (.arenaAllocationSize arena pointer) w
  | .earlyReserve size, w => process.handle _ (.earlyReserve size) w

/-! ### The contract of libc -/

/-- The blocks libc has handed out: the size that was asked for, and the usable size. -/
abbrev Blocks (τ : Type) := τ → ℕ → Option (ℕ × ℕ)

/-- An address of the arena or of the early buffer. -/
def Process.Foreign (process : Process (τ × Bytes)) (a : ℕ) : Prop :=
  process.state.arenaOwns a = true ∨ process.platform.isEarlyPointer a = true

/-- An address libc leaves alone: one that is not its own, or of a block that it has handed
out and that is not `p`. -/
def Process.Apart (process : Process (τ × Bytes)) (held : Blocks τ) (x : τ) (p : Option ℕ)
    (a : ℕ) : Prop :=
  process.Foreign a ∨ ∃ q m u, some q ≠ p ∧ held x q = some (m, u) ∧ q ≤ a ∧ a < q + u

/-- A request for `n` bytes that was answered with `r`. -/
structure Process.Hands (process : Process (τ × Bytes)) (held : Blocks τ) (n : ℕ) (s : τ × Bytes)
    (r : ℕ × (τ × Bytes)) : Prop where
  null : r.1 = 0 → held r.2.1 = held s.1
  block : r.1 ≠ 0 → held s.1 r.1 = none ∧
    ∃ u, held r.2.1 = update (held s.1) r.1 (some (n, u))
  bytes : ∀ a, process.Apart held s.1 none a → r.2.2 a = s.2 a

/-- What the functions of libc are assumed to do. -/
structure Process.Contract (process : Process (τ × Bytes)) (held : Blocks τ) : Prop where
  usable : ∀ x p m u, held x p = some (m, u) → m ≤ u
  own : ∀ x p m u, held x p = some (m, u) → p ≠ 0 ∧ ¬process.Foreign p ∧
    ∀ a, p ≤ a → a < p + u → ¬process.Foreign a
  apart : ∀ x p m u p' m' u', held x p = some (m, u) → held x p' = some (m', u') → p ≠ p' →
    p + u ≤ p' ∨ p' + u' ≤ p
  malloc : ∀ n s, process.Hands held n s (process.real.malloc n s)
  calloc : ∀ count n s, process.Hands held (count * n) s (process.real.calloc count n s)
  memalign : ∀ alignment n s, process.Hands held n s (process.real.memalign alignment n s)
  /-- A block that could not be resized stays as it is. -/
  realloc_null : ∀ p n m u s, held s.1 p = some (m, u) → 0 < n →
    (process.real.realloc p n s).1 = 0 →
      held (process.real.realloc p n s).2.1 = held s.1 ∧
      ∀ a, process.Apart held s.1 none a → (process.real.realloc p n s).2.2 a = s.2 a
  realloc_block : ∀ p n m u s, held s.1 p = some (m, u) → 0 < n →
    (process.real.realloc p n s).1 ≠ 0 →
      ((process.real.realloc p n s).1 = p ∨ held s.1 (process.real.realloc p n s).1 = none) ∧
      (∃ u', held (process.real.realloc p n s).2.1 =
        update (update (held s.1) p none) (process.real.realloc p n s).1 (some (n, u'))) ∧
      (∀ i < min m n,
        (process.real.realloc p n s).2.2 ((process.real.realloc p n s).1 + i) = s.2 (p + i)) ∧
      ∀ a, process.Apart held s.1 (some p) a → (process.real.realloc p n s).2.2 a = s.2 a
  free : ∀ p m u s, held s.1 p = some (m, u) →
    held (process.real.free p s).1 = update (held s.1) p none ∧
    ∀ a, process.Apart held s.1 (some p) a → (process.real.free p s).2 a = s.2 a
  mallocUsableSize : ∀ p m u s, held s.1 p = some (m, u) →
    (process.real.mallocUsableSize p s).1 = u ∧
    held (process.real.mallocUsableSize p s).2.1 = held s.1 ∧
    (process.real.mallocUsableSize p s).2.2 = s.2
  lock : ∀ s, held (process.real.lock s).2.1 = held s.1 ∧ (process.real.lock s).2.2 = s.2

/-- A block of `m` bytes at `p` that an allocator has handed out and not taken back.  What
comes from the early buffer is never taken back. -/
def Process.HeldBy (process : Process (τ × Bytes)) (held : Blocks τ) (w : World (τ × Bytes)) :
    Producer → ℕ → ℕ → Prop
  | .early, p, m =>
    process.platform.isEarlyPointer p = true ∧ p + m ≤ process.platform.earlyBase + earlySize
  | .arena, p, m => ∃ arena i, process.state.arena = some arena ∧ (w.extents i).active = true ∧
      p = arena.base + (w.extents i).offset ∧ (w.extents i).requestedLen = max m 1
  | .libc, p, m => ∃ u, held w.libc.1 p = some (m, u)

/-! ### Runs -/

/-- A process, and the blocks its callers hold, with the sizes they asked for. -/
structure ByteSession (τ : Type) where
  world : World (τ × Bytes)
  live : ℕ → Option ℕ

/-- A step of the process: the constructor runs, an interposed function is called, or a
caller writes to a block it holds. -/
inductive ByteStep
  | init
  | call (api : Api)
  | write (pointer index : ℕ) (value : UInt8)

namespace ByteSession

/-- Before the constructor has run. -/
def fresh (libc : τ × Bytes) : ByteSession τ where
  world := (PreloadSession.fresh libc).world
  live _ := none

/-- Callers pass null or a pointer they hold, and write inside their blocks. -/
def Legal (s : ByteSession τ) : ByteStep → Prop
  | .init => True
  | .call api => api.argument = 0 ∨ (s.live api.argument).isSome
  | .write p i _ => ∃ m ∈ s.live p, i < m

instance (s : ByteSession τ) (a : ByteStep) : Decidable (s.Legal a) :=
  match a with
  | .init => inferInstanceAs (Decidable True)
  | .call api => inferInstanceAs (Decidable (api.argument = 0 ∨ (s.live api.argument).isSome))
  | .write p i _ => inferInstanceAs (Decidable (∃ m ∈ s.live p, i < m))

/-- Run one step. -/
def step (process : Process (τ × Bytes)) (s : ByteSession τ) :
    ByteStep → Except Fault (ByteSession τ)
  | .init => .ok { s with world := { s.world with initialized := true } }
  | .call api =>
    match (api.run process.platform).exec process.handleBytes s.world with
    | .error e => .error e
    | .ok (result, world) =>
      let live := if api.consumes result then update s.live api.argument none else s.live
      .ok
        { world := world
          live := if result = 0 then live
            else update live result (api.effectiveSize process.platform) }
  | .write p i v => .ok { s with world := s.world.withBytes (update s.world.bytes (p + i) v) }

/-- One legal step that was completed. -/
def Step (process : Process (τ × Bytes)) (s s' : ByteSession τ) : Prop :=
  ∃ a, s.Legal a ∧ s.step process a = .ok s'

/-- Run a script of legal steps; `none` if one of them is not legal or fails. -/
def script (process : Process (τ × Bytes)) (as : List ByteStep) (s : ByteSession τ) :
    Option (ByteSession τ) :=
  as.foldlM (Lib.attempt Legal (step process)) s

end ByteSession

end Cxlalloc.Preload
