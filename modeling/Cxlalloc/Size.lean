/-
Size classes and brackets (`size.rs`, `size/small.rs`, `size/large.rs`).

A bracket is a set of size classes that share one slab size and one layout of slab
metadata.  `Small` and `Large` are the two brackets that are carved into slabs.
-/
import Cxlalloc.Lib.Numerals
import Mathlib.Algebra.Group.Nat.Defs
import Mathlib.Data.Fintype.Basic
import Mathlib.Data.Nat.Log

namespace Cxlalloc

/-- `usize::next_multiple_of`. -/
def nextMultipleOf (a m : ℕ) : ℕ :=
  (a + m - 1) / m * m

/-- `usize::next_power_of_two`. -/
def nextPowerOfTwo (n : ℕ) : ℕ :=
  if n ≤ 1 then 1 else 2 ^ (Nat.log2 (n - 1) + 1)

/-- `trailing_zeros` of a word of `width` bits. -/
def trailingZeros : ℕ → ℕ → ℕ
  | 0, _ => 0
  | width + 1, x => if x % 2 = 1 then 0 else trailingZeros width (x / 2) + 1

/-- `SIZE_CACHE_LINE`. -/
def sizeCacheLine : ℕ := 64

/-- `bitset::SIZE_METADATA` and `slab::local::SIZE_METADATA` together. -/
def sizeMetadata : ℕ := 16 + 8

/-- `trait Bracket`.  `classes` lists the classes in the order of `size::Array`. -/
class Bracket (B : Type) where
  /-- `SIZE_SLAB`, in bytes. -/
  sizeSlab : ℕ
  sizeSlab_pos : 0 < sizeSlab
  /-- Number of 64-bit words in the free bitset. -/
  rows : ℕ
  classes : List B
  /-- The class whose packing is all zero bits. -/
  zeroed : B
  new : ℕ → Option B
  isZero : B → Bool
  size : B → ℕ
  count : B → ℕ

/-- `size_of::<slab::Local<B>>()`: link, owner and class, the metadata of the bitset, and
its rows. -/
def sizeOfLocal (B : Type) [Bracket B] : ℕ := sizeMetadata + 8 * Bracket.rows B

/-- 0B, 8B, 16B, 24B, ..., 1016B. -/
structure Small where
  value : Fin 128
  deriving DecidableEq, Repr

namespace Small

/-- `Small::SIZE_MAX`. -/
def sizeMax : ℕ := 1016

/-- `Small::SIZE_SLAB`. -/
def sizeSlab : ℕ := sizeCacheLine * 8 * 8 * 8

/-- Words of the bitset, minus metadata. -/
def rows : ℕ := (sizeCacheLine * 8 - sizeMetadata) / 8

/-- `Small::new`. -/
def new (size : ℕ) : Option Small :=
  if size ≤ sizeMax then some ⟨Fin.ofNat 128 (nextMultipleOf size 8 / 8)⟩ else none

/-- `Small::counts`.  The smallest class gives up the bits that hold metadata. -/
def counts (i : ℕ) : ℕ :=
  if i = 0 then 0 else if i = 1 then rows * 8 * 8 else sizeSlab / (i * 8)

instance : Bracket Small where
  sizeSlab := sizeSlab
  sizeSlab_pos := by decide
  rows := rows
  classes := (List.finRange 128).map Small.mk
  zeroed := ⟨0⟩
  new := new
  isZero c := c.value == 0
  size c := c.value.val * 8
  count c := counts c.value

end Small

/-- 1KiB, 2KiB, ..., 512KiB.  The packing has four bits; only the `COUNT = 10` values
that `Large::new` yields occur. -/
structure Large where
  value : Fin 10
  deriving DecidableEq, Repr

namespace Large

/-- `Large::SIZE_MIN_LOG2`. -/
def sizeMinLog2 : ℕ := 10

/-- `Large::SIZE_MAX`. -/
def sizeMax : ℕ := 2 ^ 19

/-- `Large::SIZE_SLAB`. -/
def sizeSlab : ℕ := sizeCacheLine * 1 * 8 * 2 ^ sizeMinLog2

/-- Words of the bitset, minus metadata. -/
def rows : ℕ := (sizeCacheLine * 2 - sizeMetadata) / 8

/-- `Large::new`, asked only for sizes that no small class holds. -/
def new (size : ℕ) : Option Large :=
  if size ≤ sizeMax then
    some ⟨Fin.ofNat 10 (trailingZeros 64 (nextPowerOfTwo size >>> sizeMinLog2))⟩
  else none

instance : Bracket Large where
  sizeSlab := sizeSlab
  sizeSlab_pos := by decide
  rows := rows
  classes := (List.finRange 10).map Large.mk
  zeroed := ⟨0⟩
  new := new
  isZero _ := false
  size c := 2 ^ sizeMinLog2 <<< c.value.val
  count c := sizeSlab >>> sizeMinLog2 >>> c.value.val

end Large

end Cxlalloc
