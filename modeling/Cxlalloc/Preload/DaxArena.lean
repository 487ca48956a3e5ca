/-
The arena of the preload library (`cxlalloc-preload/src/dax_arena.rs`).

One mapping of a DAX device, or an anonymous one, is carved into extents.  The table of
extents has a fixed number of entries; an entry that is not active is free.  A request
takes the first free entry and the first gap that is large enough and aligned.

`usize` values are naturals below `2 ^ 64`.  Checked operations answer `none` where the
source's do; the one addition that is not checked wraps, as it does in a release build.
What the kernel answers (where it mapped the device, whether the lock was obtained) is
an argument.
-/
import Mathlib.Data.List.MinMax
import Mathlib.Data.List.FinRange
import Mathlib.Data.Finset.Basic
import Mathlib.Logic.Function.Basic
import Mathlib.Data.Nat.Bitwise

namespace Cxlalloc.Preload

/-- One more than `usize::MAX`. -/
def usizeSize : ℕ := 2 ^ 64

/-- `usize::checked_add`. -/
def checkedAdd (a b : ℕ) : Option ℕ :=
  if a + b < usizeSize then some (a + b) else none

/-- `usize::checked_sub`. -/
def checkedSub (a b : ℕ) : Option ℕ :=
  if b ≤ a then some (a - b) else none

/-- `usize::is_power_of_two`. -/
def isPowerOfTwo (n : ℕ) : Bool :=
  decide (2 ^ Nat.log2 n = n)

/-- `value & !(alignment - 1)`. -/
def maskDown (value alignment : ℕ) : ℕ :=
  value &&& (usizeSize - 1 - (alignment - 1))

/-- `align_up`. -/
def alignUp (value alignment : ℕ) : Option ℕ := do
  let above ← checkedSub alignment 1
  let value ← checkedAdd value above
  pure (maskDown value alignment)

/-- `aligned_offset`. -/
def alignedOffset (base offset alignment : ℕ) : Option ℕ := do
  let absolute ← checkedAdd base offset
  let aligned ← alignUp absolute alignment
  checkedSub aligned base

/-- `ArenaError`. -/
inductive ArenaError
  | invalidAlignment
  | invalidDevice
  | invalidPointer
  | outOfMemory
  | overflow
  | system (errno : ℤ)
  deriving DecidableEq

/-- `MAX_EXTENTS`. -/
def maxExtents : ℕ := 128

/-- `Extent`. -/
structure Extent where
  offset : ℕ
  roundedLen : ℕ
  requestedLen : ℕ
  active : Bool
  deriving DecidableEq

/-- `Extent::EMPTY`. -/
def Extent.empty : Extent :=
  { offset := 0, roundedLen := 0, requestedLen := 0, active := false }

/-- `SharedState::extents`. -/
abbrev Extents := Fin maxExtents → Extent

namespace Extents

/-- The table of zero bytes that `create_shared_state` maps. -/
def empty : Extents := fun _ => .empty

/-- The first entry with some property. -/
def position (extents : Extents) (p : Extent → Bool) : Option (Fin maxExtents) :=
  (List.finRange maxExtents).find? fun i => p (extents i)

/-- The active extent that starts first at or after an offset. -/
def nextFrom (extents : Extents) (candidate : ℕ) : Option Extent :=
  (((List.finRange maxExtents).map extents).filter fun extent =>
    extent.active && decide (candidate ≤ extent.offset)).argmin Extent.offset

end Extents

/-- `DaxArena`: what it is made of once it has been mapped. -/
structure DaxArena where
  base : ℕ
  size : ℕ
  alignment : ℕ
  /-- A mapped address is not null. -/
  base_pos : 0 < base
  base_lt : base < usizeSize
  size_lt : size < usizeSize
  alignment_lt : alignment < usizeSize
  alignment_pow : isPowerOfTwo alignment = true
  base_aligned : alignment ∣ base

namespace DaxArena

/-- The loop of `DaxArena::allocate`, followed for a given number of rounds. -/
def seek (arena : DaxArena) (extents : Extents) (alignment roundedLen : ℕ) :
    ℕ → ℕ → Option (Except ArenaError ℕ)
  | 0, _ => none
  | rounds + 1, candidate =>
    match alignedOffset arena.base candidate alignment with
    | none => some (.error .overflow)
    | some candidate =>
      match extents.nextFrom candidate with
      | none => some (.ok candidate)
      | some extent =>
        if (candidate + roundedLen) % usizeSize ≤ extent.offset then some (.ok candidate)
        else
          match checkedAdd extent.offset extent.roundedLen with
          | none => some (.error .overflow)
          | some candidate => seek arena extents alignment roundedLen rounds candidate

/-- `DaxArena::allocate`: the pointer and the new table.  Every round of the loop passes
an extent, so `maxExtents + 1` rounds are enough. -/
def allocate (arena : DaxArena) (lock : Except ArenaError Unit) (size alignment : ℕ)
    (extents : Extents) : Option (Except ArenaError (ℕ × Extents)) :=
  if !isPowerOfTwo alignment then some (.error .invalidAlignment)
  else
    let requestedLen := max size 1
    match alignUp requestedLen arena.alignment with
    | none => some (.error .overflow)
    | some roundedLen =>
      let allocationAlignment := max alignment arena.alignment
      match lock with
      | .error e => some (.error e)
      | .ok () =>
        match extents.position fun extent => !extent.active with
        | none => some (.error .outOfMemory)
        | some slot =>
          match arena.seek extents allocationAlignment roundedLen (maxExtents + 1) 0 with
          | none => none
          | some (.error e) => some (.error e)
          | some (.ok candidate) =>
            match (checkedAdd candidate roundedLen).filter fun stop =>
                decide (stop ≤ arena.size) with
            | none => some (.error .outOfMemory)
            | some _ =>
              some (.ok (arena.base + candidate,
                Function.update extents slot
                  { offset := candidate, roundedLen := roundedLen,
                    requestedLen := requestedLen, active := true }))

/-- `DaxArena::pointer_offset`. -/
def pointerOffset (arena : DaxArena) (pointer : ℕ) : Option ℕ := do
  let offset ← checkedSub pointer arena.base
  if offset < arena.size then some offset else none

/-- `DaxArena::owns`. -/
def owns (arena : DaxArena) (pointer : ℕ) : Bool :=
  (arena.pointerOffset pointer).isSome

/-- `DaxArena::deallocate`. -/
def deallocate (arena : DaxArena) (lock : Except ArenaError Unit) (pointer : ℕ)
    (extents : Extents) : Except ArenaError Extents :=
  match arena.pointerOffset pointer with
  | none => .error .invalidPointer
  | some offset => do
    lock
    match extents.position fun extent => extent.active && decide (extent.offset = offset) with
    | none => .error .invalidPointer
    | some slot => .ok (Function.update extents slot .empty)

/-- `DaxArena::allocation_size`. -/
def allocationSize (arena : DaxArena) (lock : Except ArenaError Unit) (pointer : ℕ)
    (extents : Extents) : Option ℕ :=
  match arena.pointerOffset pointer, lock with
  | some offset, .ok () =>
    (extents.position fun extent => extent.active && decide (extent.offset = offset)).map
      fun slot => (extents slot).requestedLen
  | _, _ => none

end DaxArena

/-! ### Runs -/

/-- The table of an arena and the pointers its callers hold. -/
structure ArenaSession where
  extents : Extents
  live : Finset ℕ

/-- A call on the arena.  `lock` is what `pthread_mutex_lock` made of it. -/
inductive ArenaCall
  | allocate (lock : Except ArenaError Unit) (size alignment : ℕ)
  | deallocate (lock : Except ArenaError Unit) (pointer : ℕ)

namespace ArenaSession

/-- Before the first call. -/
def fresh : ArenaSession :=
  { extents := .empty, live := ∅ }

/-- Run one call; `none` if it does not return. -/
def call (arena : DaxArena) (s : ArenaSession) : ArenaCall → Option ArenaSession
  | .allocate lock size alignment =>
    (arena.allocate lock size alignment s.extents).map fun
      | .ok (pointer, extents) => { extents := extents, live := insert pointer s.live }
      | .error _ => s
  | .deallocate lock pointer =>
    match arena.deallocate lock pointer s.extents with
    | .ok extents => some { extents := extents, live := s.live.erase pointer }
    | .error _ => some s

/-- An allocation, if the call is one, asks for no more than the alignment of the arena. -/
def WithinAlignment (arena : DaxArena) : ArenaCall → Prop
  | .allocate _ _ alignment => alignment ≤ arena.alignment
  | .deallocate _ _ => True

/-- One call of kind `P` that returned. -/
def StepWhere (P : ArenaCall → Prop) (arena : DaxArena) (s s' : ArenaSession) : Prop :=
  ∃ c, P c ∧ s.call arena c = some s'

end ArenaSession

end Cxlalloc.Preload
