/-
The allocator (`allocator.rs`) and its recovery (`recover.rs`).

Three heaps behind one interface.  A request goes to the first bracket that has a class
for its size, and a pointer back to the first region that contains it.  The data regions
are reserved next to each other, so a pointer tells its bracket.

All heaps share the help array and one recovery record per thread.  The small paths
clear the record of the thread when they return; the large and the huge paths leave it
as the last transition wrote it.
-/
import Cxlalloc.Session
import Cxlalloc.Huge

namespace Cxlalloc

open Lib.Prog (lift)

/-! ### `data::Data` -/

/-- `Reservation::SIZE`. -/
def reservationSize : ℕ := 2 ^ 40

/-- `data::Data<B>`: a data region.  `Data::new` keeps the address one slab before it. -/
structure Data (B : Type) where
  base : ℕ
  base_pos : 0 < base

namespace Data

variable {B : Type} [Bracket B]

/-- The first byte of the region. -/
def start (d : Data B) : ℕ :=
  d.base + Bracket.sizeSlab B

/-- `Data::offset_to_pointer`. -/
def offsetToPointer (d : Data B) (o : Offset B) : ℕ :=
  d.base + o.value

/-- `Data::pointer_to_offset`. -/
def pointerToOffset (d : Data B) (p : ℕ) : Option (Offset B) :=
  if h : d.base < p then some ⟨p - d.base, Nat.sub_pos_of_lt h⟩ else none

/-- `Heap::checked_pointer_to_offset`.  For an offset below one slab the subtraction in
`u64::from` wraps round, and the result is past the reservation. -/
def checkedPointerToOffset (d : Data B) (p : ℕ) : Option (Offset B) :=
  (d.pointerToOffset p).filter fun o =>
    decide (Bracket.sizeSlab B ≤ o.value) && decide (o.value - Bracket.sizeSlab B < reservationSize)

end Data

/-- The three data regions, one after the other as `Reservation::new_contiguous` places
them.  `huge` is the first byte of the huge one. -/
structure Regions where
  small : Data Small
  large : Data Large
  huge : ℕ
  large_start : large.start = small.start + reservationSize
  huge_start : huge = large.start + reservationSize

/-- The regions behind a given `Data<Small>::base`. -/
def Regions.at (base : ℕ) (base_pos : 0 < base) : Regions where
  small := ⟨base, base_pos⟩
  large := ⟨base + Small.sizeSlab + (reservationSize - Large.sizeSlab), by omega⟩
  huge := base + Small.sizeSlab + reservationSize + reservationSize
  large_start := by
    show base + Small.sizeSlab + (reservationSize - Large.sizeSlab) + Large.sizeSlab =
      base + Small.sizeSlab + reservationSize
    rw [Nat.add_assoc _ _ Large.sizeSlab, Nat.sub_add_cancel (by decide)]
  huge_start := by
    show _ = base + Small.sizeSlab + (reservationSize - Large.sizeSlab) + Large.sizeSlab + _
    rw [Nat.add_assoc _ _ Large.sizeSlab, Nat.sub_add_cancel (by decide)]

/-- `Huge::checked_pointer_to_offset`, counted from the start of the region. -/
def Regions.hugeOffset (g : Regions) (p : ℕ) : Option ℕ :=
  if g.huge ≤ p ∧ p - g.huge < reservationSize then some (p - g.huge) else none

/-! ### `core::alloc::Layout` -/

/-- `Layout`. -/
structure Alloc.Layout where
  size : ℕ
  alignment : ℕ

/-- `Layout::from_size_align`: the size has to fit in an `isize` when it is rounded up. -/
def Alloc.Layout.fromSizeAlign (size alignment : ℕ) : Option Alloc.Layout :=
  if 2 ^ Nat.log2 alignment = alignment ∧ size + alignment ≤ 2 ^ 63 then some ⟨size, alignment⟩
  else none

/-- `layout.pad_to_align().size()`. -/
def Alloc.Layout.paddedSize (layout : Alloc.Layout) : ℕ :=
  nextMultipleOf layout.size layout.alignment

/-! ### `allocator::Allocator` -/

/-- `recover::State`. -/
inductive State
  | small (s : HeapState Small)
  | large (s : HeapState Large)
  deriving DecidableEq

instance : FromState Small State := ⟨.small⟩

instance : FromState Large State := ⟨.large⟩

/-- The heaps of all brackets, with what they share. -/
structure Alloc (T : Type) where
  small : Heap T Small
  large : Heap T Large
  /-- A huge descriptor is kept in a small block. -/
  huge : Huge T (Offset Small)
  /-- `Shared::help`. -/
  help : T → T → Version
  /-- `Owned::state`. -/
  log : T → Option State

/-- `Descriptor::CLASS`: a descriptor is 64 bytes. -/
def descriptorClass : Small := ⟨8⟩

namespace Alloc

variable {T α : Type} [FinEnum T]

/-- An allocator of zero bits. -/
def zeroed (blank : Descriptor) : Alloc T where
  small := Heap.zeroed
  large := Heap.zeroed
  huge := Huge.zeroed blank
  help _ _ := 0
  log _ := none

/-- What a program of the small heap sees. -/
def smallMem (s : Alloc T) : Mem T Small State :=
  { s.small with help := s.help, log := s.log }

/-- What a program of the large heap sees. -/
def largeMem (s : Alloc T) : Mem T Large State :=
  { s.large with help := s.help, log := s.log }

/-- The allocator with what a program of the small heap left. -/
def withSmall (s : Alloc T) (m : Mem T Small State) : Alloc T :=
  { s with small := m.toHeap, help := m.help, log := m.log }

/-- The allocator with what a program of the large heap left. -/
def withLarge (s : Alloc T) (m : Mem T Large State) : Alloc T :=
  { s with large := m.toHeap, help := m.help, log := m.log }

/-- Run a program of the small heap. -/
def onSmall (s : Alloc T) (p : Code T Small State α) : Except Panic (α × Alloc T) :=
  match p.exec Mem.handle s.smallMem with
  | .ok (a, m) => .ok (a, s.withSmall m)
  | .error e => .error e

/-- Run a program of the large heap. -/
def onLarge (s : Alloc T) (p : Code T Large State α) : Except Panic (α × Alloc T) :=
  match p.exec Mem.handle s.largeMem with
  | .ok (a, m) => .ok (a, s.withLarge m)
  | .error e => .error e

/-- `owned.state.store(None)`. -/
def clearLog (s : Alloc T) (t : T) : Alloc T :=
  { s with log := Function.update s.log t none }

/-- `Allocator::allocate_huge`. -/
def allocateHuge (g : Regions) (cfg : Config) (t : T) (size : ℕ) (s : Alloc T) :
    Except Panic (ℕ × Alloc T) :=
  let size := nextMultipleOf size sizePage
  if size = 0 ∨ 2 ^ 64 ≤ size then .error .unwrapNone
  else
    match s.huge.reuse t with
    | (h, some place) => do
      let (offset, h) ← h.allocate cfg.validate t size place true
      pure (g.huge + offset, { s with huge := h })
    | (h, none) => do
      match ← { s with huge := h }.onSmall (Heap.peek cfg t descriptorClass) with
      | (none, _) => .error .unwrapNone
      | (some (index, block), s) => do
        let place := Offset.fromBlock descriptorClass index block
        let (offset, h) ← s.huge.allocate cfg.validate t size place false
        let (_, s) ← { s with huge := h }.onSmall (Heap.pop cfg t descriptorClass index block)
        pure (g.huge + offset, s)

/-- `Allocator::allocate_large`. -/
def allocateLarge (g : Regions) (cfg : Config) (t : T) (size : ℕ) (s : Alloc T) :
    Except Panic (ℕ × Alloc T) :=
  match Large.new size with
  | none => s.allocateHuge g cfg t size
  | some c => do
    match ← s.onLarge (Heap.allocateBlock cfg t c) with
    | (none, s) => pure (0, s)
    | (some offset, s) => pure (g.large.offsetToPointer offset, s)

/-- `Allocator::allocate_untyped`. -/
def allocateUntyped (g : Regions) (cfg : Config) (t : T) (size : ℕ) (s : Alloc T) :
    Except Panic (ℕ × Alloc T) :=
  match Small.new size with
  | none => s.allocateLarge g cfg t size
  | some c => do
    match ← s.onSmall (Heap.allocateBlock cfg t c) with
    | (none, s) => pure (0, s)
    | (some offset, s) => pure (g.small.offsetToPointer offset, s.clearLog t)

/-- `cxlalloc_memalign` (`cxlalloc-static/src/lib.rs`). -/
def memalign (g : Regions) (cfg : Config) (t : T) (size alignment : ℕ) (s : Alloc T) :
    Except Panic (ℕ × Alloc T) :=
  match Layout.fromSizeAlign size alignment with
  | none => .error .unwrapNone
  | some layout => s.allocateUntyped g cfg t layout.paddedSize

/-- `Allocator::free_huge_untyped`. -/
def freeHugeUntyped (g : Regions) (t : T) (p : ℕ) (s : Alloc T) : Except Panic (Alloc T) :=
  match g.hugeOffset p with
  | none => .ok s
  | some offset => do
    let h ← s.huge.free t offset
    pure { s with huge := h }

/-- `Allocator::free_large_untyped`. -/
def freeLargeUntyped (g : Regions) (cfg : Config) (t : T) (p : ℕ) (s : Alloc T) :
    Except Panic (Alloc T) :=
  match g.large.checkedPointerToOffset p with
  | none => s.freeHugeUntyped g t p
  | some offset => do
    let (_, s) ← s.onLarge (Heap.free cfg t offset)
    pure s

/-- `Allocator::free_untyped`. -/
def freeUntyped (g : Regions) (cfg : Config) (t : T) (p : ℕ) (s : Alloc T) :
    Except Panic (Alloc T) :=
  match g.small.checkedPointerToOffset p with
  | none => s.freeLargeUntyped g cfg t p
  | some offset => do
    let (_, s) ← s.onSmall (Heap.free cfg t offset)
    pure (s.clearLog t)

/-- `Allocator::class_untyped`: `none` where it panics. -/
def classUntyped (g : Regions) (s : Alloc T) (p : ℕ) : Option ℕ :=
  match g.small.checkedPointerToOffset p with
  | some offset => offset.intoIndex.map fun i => Bracket.size (s.small.sizeClass i)
  | none =>
    match g.large.checkedPointerToOffset p with
    | some offset => offset.intoIndex.map fun i => Bracket.size (s.large.sizeClass i)
    | none =>
      match g.hugeOffset p with
      | some offset => (s.huge.find offset).map fun a => (s.huge.desc a).size
      | none => none

end Alloc

/-! ### Recovery -/

/-- `Allocator::recover_heap`. -/
def Heap.recoverHeap {T B R : Type} [Bracket B] [DecidableEq T] [Fintype T] [DecidableEq B]
    [FromState B R] (cfg : Config) (t : T) : HeapState B → Code T B R Unit
  | .unsizedToSized index c => do
    let head ← Stack.peek (.unsized t)
    if head ≠ index then
      -- Successfully pushed to `sized`
      let count ← Stack.count walkFuel head
      Stack.set (.unsized t) head count
    else
      -- Retry
      let _ ← unsizedToSized t c
  | .globalToUnsized index version => do
    -- Crashed between logging and CASing
    if ← Detectable.detect t .global version then Stack.recoverPush (.unsized t) index
  | .bumpToUnsized start version => do
    let start := start.getD .min
    if ← Detectable.detect t .bump version then
      let finish ← addIndex start (cfg.batchBump % 2 ^ 32)
      Slab.link cfg t none (finish.value - start.value) start
      Stack.set (.unsized t) (some start) cfg.batchBump
  | .unsizedToGlobalSave index => do
    if (← Stack.peek (.unsized t)) = some index then
      Stack.recoverLen (.unsized t)
    else
      -- Crashed after popping batch, undo
      Stack.set (.unsized t) (some index) 0
      Stack.recoverLen (.unsized t)
  | .unsizedToGlobal index version => do
    if ← Detectable.detect t .global version then
      pure ()
    else
      -- Undo popping of batch
      Stack.set (.unsized t) (some index) 0
      Stack.recoverLen (.unsized t)
  | .sizedToApplication _ _ => panic .todo
  | .applicationToSized _ _ => panic .todo
  | .remote index version last => do
    if ← Detectable.detect t (.remote index) version then
      if last then
        Stack.recoverPush (.unsized t) index
        unsizedToGlobal cfg t
    else
      -- Crashed before CASing remote descriptor, retry
      freeRemote cfg t index
  | .detach index version => do
    let c ← lift (.loadClass index)
    if ← Detectable.detect t (.remote index) version then pure ()
    else detach cfg t c index

namespace Alloc

variable {T : Type} [FinEnum T]

/-- `Allocator::recover`. -/
def recover (cfg : Config) (t : T) (s : Alloc T) : Except Panic (Alloc T) :=
  match s.log t with
  | none => .ok s
  | some (.small state) => do
    let (_, s) ← s.onSmall (Heap.recoverHeap cfg t state)
    pure s
  | some (.large state) => do
    let (_, s) ← s.onLarge (Heap.recoverHeap cfg t state)
    pure s

/-- `Allocator::focus`, with `recover = true`. -/
def focus (cfg : Config) (t : T) (s : Alloc T) : Except Panic (Alloc T) := do
  let dram ← s.huge.focus t
  { s with huge := { s.huge with dram := Function.update s.huge.dram t dram } }.recover cfg t

end Alloc

/-! ### Runs -/

/-- The allocator and the pointers its callers hold. -/
structure AllocSession (T : Type) where
  alloc : Alloc T
  live : Finset ℕ

/-- A call of a thread. -/
inductive AllocCall (T : Type)
  | allocate (t : T) (size : ℕ)
  | free (t : T) (pointer : ℕ)

/-- Every slab that was handed out is inside its region. -/
def Alloc.Reserved {T : Type} (s : Alloc T) : Prop :=
  ((s.small.bump.inner.getD .min).value - 1) * Small.sizeSlab ≤ reservationSize ∧
    ((s.large.bump.inner.getD .min).value - 1) * Large.sizeSlab ≤ reservationSize

instance {T : Type} (s : Alloc T) : Decidable s.Reserved :=
  inferInstanceAs (Decidable (_ ∧ _))

namespace AllocSession

variable {T : Type} [FinEnum T]

/-- Before the first call. -/
def zeroed (blank : Descriptor) : AllocSession T :=
  { alloc := Alloc.zeroed blank, live := ∅ }

/-- Only live pointers are freed. -/
def Legal (s : AllocSession T) : AllocCall T → Prop
  | .allocate _ _ => True
  | .free _ p => p ∈ s.live

instance (s : AllocSession T) (c : AllocCall T) : Decidable (s.Legal c) :=
  match c with
  | .allocate _ _ => inferInstanceAs (Decidable True)
  | .free _ p => inferInstanceAs (Decidable (p ∈ s.live))

/-- Run one call.  A null pointer is not live. -/
def call (g : Regions) (cfg : Config) (s : AllocSession T) :
    AllocCall T → Except Panic (AllocSession T)
  | .allocate t size =>
    match s.alloc.allocateUntyped g cfg t size with
    | .ok (p, alloc) => .ok { alloc := alloc, live := if p = 0 then s.live else insert p s.live }
    | .error e => .error e
  | .free t p =>
    match s.alloc.freeUntyped g cfg t p with
    | .ok alloc => .ok { alloc := alloc, live := s.live.erase p }
    | .error e => .error e

/-- One completed call that leaves the bump indices inside the reservation. -/
def Step (g : Regions) (cfg : Config) (s s' : AllocSession T) : Prop :=
  ∃ c : AllocCall T, s.Legal c ∧ s.call g cfg c = .ok s' ∧ s'.alloc.Reserved

/-- Run a script of calls; `none` if one of them is not legal or does not return. -/
def script (g : Regions) (cfg : Config) (cs : List (AllocCall T)) (s : AllocSession T) :
    Option (AllocSession T) :=
  cs.foldlM (fun s c => (Lib.attempt Legal (call g cfg) s c).filter (·.alloc.Reserved)) s

end AllocSession

end Cxlalloc
