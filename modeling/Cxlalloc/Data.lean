/-
Slab indices and data offsets (`slab.rs`, `data.rs`).

Both are stored off by one slab, so that zero bits can mean `None`: an `Index` counts
slabs from one, and an `Offset` counts bytes from one slab before the data region.
-/
import Cxlalloc.BitSet
import Cxlalloc.Size

namespace Cxlalloc

/-- `slab::Index<B>`: a `NonZeroU32`. -/
structure Index (B : Type) where
  value : ℕ
  pos : 0 < value

namespace Index

variable {B : Type}

@[ext] theorem ext {i j : Index B} (h : i.value = j.value) : i = j := by
  cases i; cases j; cases h; rfl

instance : DecidableEq (Index B) := fun i j =>
  decidable_of_iff (i.value = j.value) ⟨Index.ext, congrArg Index.value⟩

instance lawfulBEq : LawfulBEq (Index B) := inferInstance

/-- `Index::MIN`. -/
def min : Index B := ⟨1, Nat.one_pos⟩

/-- `Index::add`: `None` where `checked_add(count).unwrap()` panics. -/
def add (i : Index B) (count : ℕ) : Option (Index B) :=
  if i.value + count < 2 ^ 32 then some ⟨i.value + count, Nat.add_pos_left i.pos count⟩ else none

/-- The index after this one. -/
def succ (i : Index B) : Index B := ⟨i.value + 1, Nat.succ_pos _⟩

end Index

/-- `data::Offset<B>`: a `NonZeroU64`. -/
structure Offset (B : Type) where
  value : ℕ
  pos : 0 < value

namespace Offset

@[ext] theorem ext {B : Type} {o p : Offset B} (h : o.value = p.value) : o = p := by
  cases o; cases p; cases h; rfl

variable {B : Type} [Bracket B]

/-- `Offset::from_block`. -/
def fromBlock (c : B) (slab : Index B) (block : Bit) : Offset B :=
  ⟨slab.value * Bracket.sizeSlab B + block.toNat * Bracket.size c,
    Nat.add_pos_left (Nat.mul_pos slab.pos Bracket.sizeSlab_pos) _⟩

/-- `Offset::into_block`: `None` where the division by the class size panics. -/
def intoBlock (o : Offset B) (c : B) : Option Bit :=
  if Bracket.size c = 0 then none
  else some (Bit.fromLoose (o.value % Bracket.sizeSlab B / Bracket.size c))

/-- `Offset::into_index`, with the truncation of `as u32`. -/
def intoIndex (o : Offset B) : Option (Index B) :=
  if h : 0 < o.value / Bracket.sizeSlab B % 2 ^ 32 then some ⟨_, h⟩ else none

/-- `Offset + u64`: `None` where `checked_add(rhs).unwrap()` panics. -/
def add (o : Offset B) (rhs : ℕ) : Option (Offset B) :=
  if o.value + rhs < 2 ^ 64 then some ⟨o.value + rhs, Nat.add_pos_left o.pos rhs⟩ else none

/-- The bytes of a block of class `c` that starts at the offset. -/
def bytes (o : Offset B) (c : B) : Set ℕ :=
  {x | o.value ≤ x ∧ x < o.value + Bracket.size c}

end Offset

end Cxlalloc
