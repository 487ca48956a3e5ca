/-
The two-level free bitset of a slab (`bitset.rs`).

`dense` holds one bit per block, 64 to a word; `sparse` has one bit per word of
`dense`, set when the word is non-zero; `count` caches the number of set bits.
-/
import Cxlalloc.Lib.Numerals
import Cxlalloc.Panic
import Mathlib.Algebra.BigOperators.Fin

namespace Cxlalloc

/-- Position of one block in a bitset: two 6-bit coordinates. -/
structure Bit where
  col : Fin 64
  row : Fin 64
  deriving DecidableEq, Repr

namespace Bit

/-- `Bit::from_loose`. -/
def fromLoose (bit : ℕ) : Bit :=
  { row := Fin.ofNat 64 (bit >>> 6)
    col := Fin.ofNat 64 (bit &&& 0b111111) }

/-- `u64::from(bit)`. -/
def toNat (bit : Bit) : ℕ :=
  bit.col.val ||| (bit.row.val <<< 6)

end Bit

/-- `BitSet<SIZE>`. -/
structure BitSet (n : ℕ) where
  count : ℕ
  sparse : BitVec 64
  dense : Fin n → BitVec 64

namespace BitSet

variable {n : ℕ}

/-- The all-zero bit pattern. -/
def zeroed : BitSet n :=
  { count := 0, sparse := 0, dense := fun _ => 0 }

/-- `dense.get_unchecked(row)`; rows past the end are never asked for. -/
def word (s : BitSet n) (row : ℕ) : BitVec 64 :=
  if h : row < n then s.dense ⟨row, h⟩ else 0

/-- `*dense.get_unchecked_mut(row) = cols`. -/
def setWord (s : BitSet n) (row : ℕ) (cols : BitVec 64) : Fin n → BitVec 64 :=
  fun i => if i.val = row then cols else s.dense i

/-- The three checks of `BitSet::validate`. -/
def validate (s : BitSet n) : Bool :=
  decide (∑ i, (s.dense i).cpop.toNat = s.count) &&
    decide (∀ bit : Fin n, s.sparse.getLsbD bit = !(s.dense bit == 0)) &&
    decide (∀ bit : Fin 64, n ≤ bit.val → s.sparse.getLsbD bit = false)

/-- `BitSet::fill`: the first `count` bits, and no other, for `count ≤ 64 * SIZE`. -/
def fill (_ : BitSet n) (count : ℕ) : BitSet n :=
  let rows := count / 64
  let cols := count % 64
  { count := count
    sparse :=
      (if rows < 64 then (1#64 <<< rows) - 1 else BitVec.allOnes 64) |||
        (if cols = 0 then 0 else 1#64 <<< rows)
    dense := fun i =>
      if i.val < rows then BitVec.allOnes 64
      else if i.val = rows ∧ cols ≠ 0 then (1#64 <<< cols) - 1
      else 0 }

/-- `BitSet::peek_unchecked`: the first set bit of a non-empty set. -/
def peekUnchecked (s : BitSet n) : Bit :=
  let row := s.sparse.ctz.toNat
  { row := Fin.ofNat 64 row
    col := Fin.ofNat 64 (s.word row).ctz.toNat }

/-- `BitSet::len`. -/
def len (s : BitSet n) : ℕ :=
  s.count

/-- `Interface::is_empty`. -/
def isEmpty (s : BitSet n) : Bool :=
  s.len == 0

/-- `self.validate()`, in builds that check. -/
def checked (v : Bool) (s : BitSet n) : Except Panic (BitSet n) :=
  if v && !s.validate then .error .inconsistentBitSet else .ok s

/-- `BitSet::set`. -/
def set (v : Bool) (s : BitSet n) (bit : Bit) : Except Panic (BitSet n) :=
  let cols := s.word bit.row
  if v && !(cols &&& (1#64 <<< bit.col.val) == 0) then
    .error .doubleFree
  else
    checked v
      { count := s.count + 1
        sparse := s.sparse ||| (1#64 <<< bit.row.val)
        dense := s.setWord bit.row (cols ||| (1#64 <<< bit.col.val)) }

/-- `BitSet::unset`.  In the source `!` binds tighter than `<<`, so the mask on
`sparse` also clears every bit below the row. -/
def unset (v : Bool) (s : BitSet n) (bit : Bit) : Except Panic (BitSet n) :=
  let cols := s.word bit.row
  if v && (cols &&& (1#64 <<< bit.col.val) == 0) then
    .error .doubleAllocate
  else if s.count = 0 then
    .error .overflow
  else
    let cols := cols &&& ~~~(1#64 <<< bit.col.val)
    checked v
      { count := s.count - 1
        sparse := s.sparse &&& ((~~~(if cols = 0 then 1#64 else 0#64)) <<< bit.row.val)
        dense := s.setWord bit.row cols }

end BitSet

end Cxlalloc
