/-
Arithmetic in a build with overflow checks.

`Allocator` and `Preload/DaxArena` compute as a release build does: an addition or a
subtraction that leaves the word wraps round.  In a build with `overflow-checks`, which
every test build is, the same expression panics.  This module follows two functions
through such a build: the cascade that finds the heap of a pointer, and the allocation of
an extent.
-/
import Cxlalloc.Allocator
import Cxlalloc.Preload.DaxArena

namespace Cxlalloc

/-- `a - b`. -/
def subOrPanic (a b : ℕ) : Except Panic ℕ :=
  if b ≤ a then .ok (a - b) else .error .overflow

/-- `a + b` on `usize`. -/
def addOrPanic (a b : ℕ) : Except Panic ℕ :=
  if a + b < Preload.usizeSize then .ok (a + b) else .error .overflow

/-! ### The heap of a pointer -/

/-- `From<Offset<B>> for u64`. -/
def Offset.toU64 {B : Type} [Bracket B] (o : Offset B) : Except Panic ℕ :=
  subOrPanic o.value (Bracket.sizeSlab B)

/-- `Heap::checked_pointer_to_offset`. -/
def Data.strictPointerToOffset {B : Type} [Bracket B] (d : Data B) (p : ℕ) :
    Except Panic (Option (Offset B)) :=
  match d.pointerToOffset p with
  | none => pure none
  | some o => do
    let value ← o.toU64
    pure (if value < reservationSize then some o else none)

namespace Regions

/-- The heap that accepts a pointer, and the offset it is there. -/
inductive Target
  | small (o : Offset Small)
  | large (o : Offset Large)
  | huge (offset : ℕ)

/-- The cascade of `free_untyped` and `class_untyped`. -/
def route (g : Regions) (p : ℕ) : Except Panic (Option Target) := do
  match ← g.small.strictPointerToOffset p with
  | some o => pure (some (.small o))
  | none =>
    match ← g.large.strictPointerToOffset p with
    | some o => pure (some (.large o))
    | none => pure ((g.hugeOffset p).map .huge)

/-- The same cascade in a release build. -/
def target (g : Regions) (p : ℕ) : Option Target :=
  match g.small.checkedPointerToOffset p with
  | some o => some (.small o)
  | none =>
    match g.large.checkedPointerToOffset p with
    | some o => some (.large o)
    | none => (g.hugeOffset p).map .huge

end Regions

/-! ### The arena -/

namespace Preload

/-- `align_up`. -/
def strictAlignUp (value alignment : ℕ) : Except Panic (Option ℕ) :=
  match checkedSub alignment 1 with
  | none => pure none
  | some above =>
    match checkedAdd value above with
    | none => pure none
    | some value => do
      let mask ← subOrPanic alignment 1
      pure (some (value &&& (usizeSize - 1 - mask)))

/-- `aligned_offset`. -/
def strictAlignedOffset (base offset alignment : ℕ) : Except Panic (Option ℕ) :=
  match checkedAdd base offset with
  | none => pure none
  | some absolute => do
    match ← strictAlignUp absolute alignment with
    | none => pure none
    | some aligned => pure (checkedSub aligned base)

namespace DaxArena

/-- The loop of `DaxArena::allocate`. -/
def strictSeek (arena : DaxArena) (extents : Extents) (alignment roundedLen : ℕ) :
    ℕ → ℕ → Except Panic (Except ArenaError ℕ)
  | 0, _ => .error .diverge
  | rounds + 1, candidate => do
    match ← strictAlignedOffset arena.base candidate alignment with
    | none => pure (.error .overflow)
    | some candidate =>
      match extents.nextFrom candidate with
      | none => pure (.ok candidate)
      | some extent => do
        let stop ← addOrPanic candidate roundedLen
        if stop ≤ extent.offset then pure (.ok candidate)
        else
          match checkedAdd extent.offset extent.roundedLen with
          | none => pure (.error .overflow)
          | some candidate => strictSeek arena extents alignment roundedLen rounds candidate

/-- `DaxArena::allocate`. -/
def strictAllocate (arena : DaxArena) (lock : Except ArenaError Unit) (size alignment : ℕ)
    (extents : Extents) : Except Panic (Except ArenaError (ℕ × Extents)) :=
  if !isPowerOfTwo alignment then pure (.error .invalidAlignment)
  else do
    let requestedLen := max size 1
    match ← strictAlignUp requestedLen arena.alignment with
    | none => pure (.error .overflow)
    | some roundedLen =>
      let allocationAlignment := max alignment arena.alignment
      match lock with
      | .error e => pure (.error e)
      | .ok () =>
        match extents.position fun extent => !extent.active with
        | none => pure (.error .outOfMemory)
        | some slot => do
          match ← arena.strictSeek extents allocationAlignment roundedLen
              (maxExtents + 1) 0 with
          | .error e => pure (.error e)
          | .ok candidate =>
            match (checkedAdd candidate roundedLen).filter fun stop =>
                decide (stop ≤ arena.size) with
            | none => pure (.error .outOfMemory)
            | some _ => do
              let pointer ← addOrPanic arena.base candidate
              pure (.ok (pointer,
                Function.update extents slot
                  { offset := candidate, roundedLen := roundedLen,
                    requestedLen := requestedLen, active := true }))

end DaxArena

end Preload

end Cxlalloc
