/-
Regions that grow by whole chunks (`raw/region.rs`, `Heap::layout`, `Heap::try_map`).

Each heap has three regions with one entry per slab: its local record, its remote counter
and its data.  A region is reserved address space that is mapped one chunk at a time, each
time a fault is taken in it; the chunk of a fault is mapped in all three regions.  A chunk
holds the entries of `n` slabs, rounded up to whole pages, separately for each region.

Mapping is anonymous: a chunk starts as zero bytes, also if it had been mapped before.
-/
import Cxlalloc.Huge
import Mathlib.Logic.Function.Basic

namespace Cxlalloc

open Function

/-- The two heaps that are carved into slabs. -/
inductive HeapKind
  | small
  | large
  deriving DecidableEq

namespace HeapKind

/-- `B::SIZE_SLAB`. -/
def sizeSlab : HeapKind → ℕ
  | .small => Small.sizeSlab
  | .large => Large.sizeSlab

/-- The size of a local record. -/
def sizeLocal : HeapKind → ℕ
  | .small => sizeOfLocal Small
  | .large => sizeOfLocal Large

/-- `size_of::<cas::Detectable<slab::Remote>>()`. -/
def sizeRemote : HeapKind → ℕ
  | _ => 8

end HeapKind

/-- `heap::Layout`. -/
structure Layout where
  locals : ℕ
  remotes : ℕ
  data : ℕ

/-- `Heap::layout`. -/
def Heap.layout (kind : HeapKind) (count : ℕ) : Layout where
  locals := count * kind.sizeLocal
  remotes := count * kind.sizeRemote
  data := count * kind.sizeSlab

/-- `region::Sequential`. -/
structure Sequential where
  /-- `reservation.start()`. -/
  start : ℕ
  /-- The size of a chunk. -/
  size : ℕ
  /-- The bytes of each chunk that is mapped. -/
  chunks : ℕ → Option (ℕ → UInt8)

namespace Sequential

/-- `Sequential::new`. -/
def new (start size : ℕ) (isLazy : Bool) : Sequential where
  start := start
  size := nextMultipleOf size sizePage
  chunks := if isLazy then fun _ => none else update (fun _ => none) 0 (some fun _ => 0)

/-- `Sequential::map`. -/
def map (r : Sequential) (offset : ℕ) : Sequential :=
  { r with chunks := update r.chunks (offset / r.size) (some fun _ => 0) }

/-- Whether a byte can be accessed without a fault. -/
def IsMapped (r : Sequential) (address : ℕ) : Prop :=
  ∃ k, r.chunks k ≠ none ∧ r.start + k * r.size ≤ address ∧ address < r.start + (k + 1) * r.size

/-- Every chunk that is mapped in `r` is in `r'`, with the same bytes. -/
def Kept (r r' : Sequential) : Prop :=
  ∀ k bytes, r.chunks k = some bytes → r'.chunks k = some bytes

end Sequential

/-- The regions of one heap. -/
structure Mapping where
  locals : Sequential
  remotes : Sequential
  data : Sequential

namespace Mapping

/-- The regions of one heap as `Raw::new` makes them: lazily, or with the first chunk. -/
def create (kind : HeapKind) (localStart remoteStart dataStart count : ℕ) (isLazy : Bool) :
    Mapping where
  locals := .new localStart (Heap.layout kind count).locals isLazy
  remotes := .new remoteStart (Heap.layout kind count).remotes isLazy
  data := .new dataStart (Heap.layout kind count).data isLazy

/-- The offsets `Heap::try_map` maps for an address, with `len` slabs handed out. -/
def offsets (kind : HeapKind) (m : Mapping) (len address : ℕ) : Option (ℕ × ℕ × ℕ) :=
  if m.locals.start ≤ address ∧ address < m.locals.start + len * kind.sizeLocal then
    let localOffset := address - m.locals.start
    some (localOffset, localOffset / kind.sizeLocal * kind.sizeRemote,
      localOffset / kind.sizeLocal * kind.sizeSlab)
  else if m.remotes.start ≤ address ∧ address < m.remotes.start + len * kind.sizeRemote then
    let remoteOffset := address - m.remotes.start
    some (remoteOffset / kind.sizeRemote * kind.sizeLocal, remoteOffset,
      remoteOffset / kind.sizeRemote * kind.sizeSlab)
  else if m.data.start ≤ address ∧ address < m.data.start + len * kind.sizeSlab then
    let dataOffset := address - m.data.start
    some (dataOffset / kind.sizeSlab * kind.sizeLocal, dataOffset / kind.sizeSlab * kind.sizeRemote,
      dataOffset)
  else none

/-- `Heap::try_map`; `none` for `OutOfBounds`. -/
def tryMap (kind : HeapKind) (m : Mapping) (len : Option ℕ) (address : ℕ) : Option Mapping := do
  let len ← len
  let (localOffset, remoteOffset, dataOffset) ← m.offsets kind len address
  pure
    { locals := m.locals.map localOffset
      remotes := m.remotes.map remoteOffset
      data := m.data.map dataOffset }

/-- Whether an address can be accessed without a fault. -/
def IsMapped (m : Mapping) (address : ℕ) : Prop :=
  m.locals.IsMapped address ∨ m.remotes.IsMapped address ∨ m.data.IsMapped address

/-- The most slabs a heap can hand out: the largest index the bump can hold, less one. -/
def maxLen : ℕ := 2 ^ 32 - 2

/-- A fault below the bump length, or a store to a byte that is mapped. -/
inductive Step (kind : HeapKind) (m : Mapping) : Mapping → Prop
  | fault (len address : ℕ) (hlen : len ≤ maxLen) (hfault : ¬m.IsMapped address) (m' : Mapping)
      (hmap : m.tryMap kind (some len) address = some m') : Step kind m m'
  | storeLocal (k : ℕ) (bytes bytes' : ℕ → UInt8) (hk : m.locals.chunks k = some bytes) :
      Step kind m { m with locals.chunks := update m.locals.chunks k (some bytes') }
  | storeRemote (k : ℕ) (bytes bytes' : ℕ → UInt8) (hk : m.remotes.chunks k = some bytes) :
      Step kind m { m with remotes.chunks := update m.remotes.chunks k (some bytes') }
  | storeData (k : ℕ) (bytes bytes' : ℕ → UInt8) (hk : m.data.chunks k = some bytes) :
      Step kind m { m with data.chunks := update m.data.chunks k (some bytes') }

/-- A fault is answered without mapping a chunk that is mapped, and keeps every byte. -/
structure Grows (kind : HeapKind) (m : Mapping) (len address : ℕ) : Prop where
  fresh : ∀ l r d, m.offsets kind len address = some (l, r, d) →
    m.locals.chunks (l / m.locals.size) = none ∧ m.remotes.chunks (r / m.remotes.size) = none ∧
      m.data.chunks (d / m.data.size) = none
  kept : ∀ m', m.tryMap kind (some len) address = some m' →
    m.locals.Kept m'.locals ∧ m.remotes.Kept m'.remotes ∧ m.data.Kept m'.data

end Mapping

end Cxlalloc
