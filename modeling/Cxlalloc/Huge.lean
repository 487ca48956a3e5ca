/-
The huge heap (`huge.rs`).

Address space is claimed in slots of 1 GiB.  Inside the slots it has claimed, a thread
hands out page ranges first fit from a free set it keeps in DRAM, and records each one
in a descriptor on its own list.  A descriptor is `Live`, then `Free` once the range
was freed by anybody, then `Safe` once its owner has seen that no thread holds a hazard
on the range any more; only then does the range go back to the free set.

The list of a thread (`Owned::head` and the `next` boxes behind it) is kept as the list
of its descriptors, newest first, and the free set as the finite set of free bytes.  An
offset counts bytes from the start of the region, as `u64::from(offset)` does.
-/
import Cxlalloc.Panic
import Cxlalloc.Size
import Mathlib.Data.Finset.Max
import Mathlib.Data.Finset.Interval
import Mathlib.Order.Interval.Finset.Nat
import Mathlib.Data.FinEnum
import Mathlib.Logic.Function.Basic

namespace Cxlalloc

open Function

/-- `Huge::SIZE_SLAB`. -/
def sizeSlot : ℕ := 2 ^ 30

/-- `Shared::slots.len()`. -/
def slotsLen : ℕ := 1024

/-- `Owned::hazards.len()`. -/
def hazardsLen : ℕ := 1024

/-- `crate::SIZE_PAGE`. -/
def sizePage : ℕ := 4096

/-- `huge::Claim`. -/
structure Claim (T : Type) where
  id : T
  slotCount : ℕ
  deriving DecidableEq

/-- `huge::State`. -/
inductive DescriptorState
  | live
  | free
  | safe
  deriving DecidableEq

/-- `huge::Descriptor`, without its link. -/
structure Descriptor where
  index : ℕ
  offset : ℕ
  size : ℕ
  state : DescriptorState
  deriving DecidableEq

namespace Descriptor

/-- The bytes from `offset` on. -/
def range (d : Descriptor) : Finset ℕ :=
  Finset.Ico d.offset (d.offset + d.size)

/-- `Descriptor::contains`. -/
def contains (d : Descriptor) (offset : ℕ) : Bool :=
  decide (d.offset ≤ offset) && decide (offset < d.offset + d.size)

end Descriptor

/-- `huge::Allocator`: what one thread keeps in DRAM. -/
structure Dram where
  free : Finset ℕ
  index : ℕ

namespace Dram

/-- `Allocator::default`. -/
def default : Dram :=
  { free := ∅, index := 0 }

/-- `Allocator::cover`. -/
def cover (d : Dram) (offset size : ℕ) : Except Panic Dram :=
  if Finset.Ico offset (offset + size) ⊆ d.free then
    .ok { d with free := d.free \ Finset.Ico offset (offset + size) }
  else .error .coverTaken

/-- `Allocator::uncover`. -/
def uncover (d : Dram) (offset size : ℕ) : Dram :=
  { d with free := d.free ∪ Finset.Ico offset (offset + size) }

/-- `Allocator::claim`. -/
def claim (d : Dram) (slot slotCount : ℕ) : Dram :=
  d.uncover (slot * sizeSlot) (slotCount * sizeSlot)

/-- The lower ends of the maximal free intervals that hold `size` bytes. -/
def fits (free : Finset ℕ) (size : ℕ) : Finset ℕ :=
  free.filter fun lower => (∀ below ∈ free, below + 1 ≠ lower) ∧
    Finset.Ico lower (lower + size) ⊆ free

/-- `free.iter().find(|interval| interval.size() >= size)`: the first of them. -/
def firstFit (free : Finset ℕ) (size : ℕ) : Option ℕ :=
  if h : (fits free size).Nonempty then some ((fits free size).min' h) else none

/-- `Allocator::allocate`. -/
def allocate (d : Dram) (size : ℕ) : Except Panic (Option (Descriptor × Dram)) :=
  match firstFit d.free size with
  | none => .ok none
  | some offset =>
    match d.cover offset size with
    | .error e => .error e
    | .ok d =>
      .ok (some
        ({ index := d.index + 1, offset := offset, size := size, state := .live },
          { d with index := d.index + 1 }))

end Dram

/-- The huge heap.  `A` is the type of the places descriptors are kept at. -/
structure Huge (T A : Type) where
  /-- `Shared::slots`. -/
  slots : ℕ → Option (Claim T)
  /-- `Shared::hint`. -/
  hint : ℕ
  /-- `Owned::head` of each thread, followed to its end. -/
  list : T → List A
  /-- `Owned::hazards` of each thread, up to `len`. -/
  hazards : T → List ℕ
  /-- The descriptor at each place. -/
  desc : A → Descriptor
  /-- `Huge::allocator` of each thread. -/
  dram : T → Dram

/-- `Owned::swap_remove`. -/
def swapRemove (hazards : List ℕ) (offset : ℕ) : List ℕ :=
  match hazards.idxOf? offset, hazards.getLast? with
  | some index, some last => (hazards.set index last).dropLast
  | _, _ => hazards

namespace Huge

variable {T A : Type} [FinEnum T] [DecidableEq A]

/-- A heap of zero bits, and threads that have just started. -/
def zeroed (blank : Descriptor) : Huge T A where
  slots _ := none
  hint := 0
  list _ := []
  hazards _ := []
  desc _ := blank
  dram _ := Dram.default

/-- `Owned::insert`. -/
def insertHazard (validate : Bool) (id : T) (offset : ℕ) (h : Huge T A) :
    Except Panic (Huge T A) :=
  if validate && decide (offset ∈ h.hazards id) then .error .hazardTaken
  else if (h.hazards id).length < hazardsLen then
    .ok { h with hazards := update h.hazards id (h.hazards id ++ [offset]) }
  else .error .outOfBounds

/-- `Huge::refresh` for one descriptor. -/
def refreshOne (id : T) (h : Huge T A) (a : A) : Huge T A :=
  match (h.desc a).state with
  | .free =>
    { h with
      hazards := update h.hazards id (swapRemove (h.hazards id) (h.desc a).offset) }
  | _ => h

/-- `Huge::refresh`: give up the hazards on ranges that have been freed. -/
def refresh (id : T) (h : Huge T A) : Huge T A :=
  ((FinEnum.toList T).flatMap h.list).foldl (refreshOne id) h

/-- Whether any thread holds a hazard on an offset. -/
def hazardous (h : Huge T A) (offset : ℕ) : Bool :=
  (FinEnum.toList T).any fun id => decide (offset ∈ h.hazards id)

/-- `Huge::reuse` for one descriptor: the heap and the first descriptor to reuse. -/
def reuseOne (id : T) : Huge T A × Option A → A → Huge T A × Option A
  | (h, safe), a =>
    match (h.desc a).state with
    | .live => (h, safe)
    | .free =>
      -- Protected by hazard pointer
      if h.hazardous (h.desc a).offset then (h, safe)
      else
        ({ h with
            dram := update h.dram id
              ((h.dram id).uncover (h.desc a).offset (h.desc a).size)
            desc := update h.desc a { h.desc a with state := .safe } },
          safe.or (some a))
    | .safe => (h, safe.or (some a))

/-- `Huge::reuse`. -/
def reuse (id : T) (h : Huge T A) : Huge T A × Option A :=
  (h.list id).foldl (reuseOne id) (h, none)

/-- The loop of `Shared::claim`, followed for `n` slots. -/
def claimSlot (id : T) (slotCount : ℕ) (h : Huge T A) : ℕ → ℕ → Except Panic (ℕ × Huge T A)
  | 0, _ => .error .diverge
  | n + 1, i =>
    if i + slotCount ≤ slotsLen then
      match h.slots i with
      | none =>
        .ok (i,
          { h with
            slots := update h.slots i (some { id := id, slotCount := slotCount })
            hint := i + slotCount })
      | some claim => claimSlot id slotCount h n (i + claim.slotCount)
    else .error .outOfAddressSpace

/-- `Huge::claim`. -/
def claim (id : T) (size : ℕ) (h : Huge T A) : Except Panic (Huge T A) := do
  let slotCount := nextMultipleOf size sizeSlot / sizeSlot
  let (slot, h) ← claimSlot id slotCount h (slotsLen + 1) h.hint
  pure { h with dram := update h.dram id ((h.dram id).claim slot slotCount) }

/-- The loop of `Huge::allocate`, followed for `n` rounds: a range and its descriptor. -/
def allocateRange (id : T) (size : ℕ) : ℕ → Huge T A → Except Panic (Descriptor × Huge T A)
  | 0, _ => .error .diverge
  | n + 1, h => do
    match ← (h.dram id).allocate size with
    | none => allocateRange id size n (← h.claim id size)
    | some (descriptor, dram) =>
      pure (descriptor, { h with dram := update h.dram id dram })

/-- `Huge::allocate`.  A second round always finds room in the slots just claimed. -/
def allocate (validate : Bool) (id : T) (size : ℕ) (out : A) (reuse : Bool) (h : Huge T A) :
    Except Panic (ℕ × Huge T A) := do
  let (descriptor, h) ← allocateRange id size 2 (h.refresh id)
  let h := { h with desc := update h.desc out descriptor }
  let h :=
    if reuse then h
    else { h with list := update h.list id (out :: h.list id) }
  let h ← h.insertHazard validate id descriptor.offset
  pure (descriptor.offset, h)

/-- The loop of `Shared::find`: the claim at or before a slot. -/
def findClaim (h : Huge T A) : ℕ → Option T
  | 0 => (h.slots 0).map Claim.id
  | slot + 1 =>
    match h.slots (slot + 1) with
    | some claim => some claim.id
    | none => findClaim h slot

/-- `Shared::find`. -/
def findOwner (h : Huge T A) (offset : ℕ) : Option T :=
  let slot := offset / sizeSlot
  if slot < slotsLen then h.findClaim slot else none

/-- `Huge::find`. -/
def find (h : Huge T A) (offset : ℕ) : Option A :=
  match h.findOwner offset with
  | none => none
  | some id => (h.list id).find? fun a => (h.desc a).contains offset

/-- `Huge::free`. -/
def free (id : T) (offset : ℕ) (h : Huge T A) : Except Panic (Huge T A) :=
  let h := h.refresh id
  match h.find offset with
  | none => .error .unwrapNone
  | some a =>
    .ok { h with
      hazards := update h.hazards id (swapRemove (h.hazards id) (h.desc a).offset)
      desc := update h.desc a { h.desc a with state := .free } }

/-- `Huge::class`. -/
def classOf (h : Huge T A) (offset : ℕ) : Except Panic ℕ :=
  match h.find offset with
  | none => .error .unwrapNone
  | some a => .ok (h.desc a).size

/-- `Huge::try_map`. -/
def tryMap (validate : Bool) (id : T) (offset : ℕ) (h : Huge T A) : Except Panic (Huge T A) :=
  match h.find offset with
  | none => .ok h
  | some a => h.insertHazard validate id (h.desc a).offset

/-- `Huge::focus`: the DRAM state of a thread that starts anew. -/
def focus (id : T) (h : Huge T A) : Except Panic Dram := do
  let claimed := (List.range slotsLen).foldl (fun d slot =>
    match h.slots slot with
    | some claim => if claim.id = id then d.claim slot claim.slotCount else d
    | none => d) Dram.default
  let covered ← ((h.list id).filter fun a => decide ((h.desc a).state = .live)).foldlM
    (fun d a => d.cover (h.desc a).offset (h.desc a).size) claimed
  pure { covered with index := ((h.list id).map fun a => (h.desc a).index).foldl max 0 }

/-- `Allocator::allocate_huge`, given the block the small heap would provide for a new
descriptor. -/
def allocateHuge (validate : Bool) (id : T) (size : ℕ) (block : A) (h : Huge T A) :
    Except Panic (ℕ × Huge T A) :=
  let size := nextMultipleOf size sizePage
  if size = 0 ∨ 2 ^ 64 ≤ size then .error .unwrapNone
  else
    match h.reuse id with
    | (h, some a) => h.allocate validate id size a true
    | (h, none) => h.allocate validate id size block false

end Huge

/-! ### Runs -/

/-- The huge heap and the offsets that are live. -/
structure HugeSession (T A : Type) where
  heap : Huge T A
  live : Finset ℕ

/-- A call on the huge heap.  An allocation comes with the block for its descriptor. -/
inductive HugeCall (T A : Type)
  | allocate (t : T) (size : ℕ) (block : A)
  | free (t : T) (offset : ℕ)
  | tryMap (t : T) (offset : ℕ)

namespace HugeSession

variable {T A : Type} [FinEnum T] [DecidableEq A]

/-- Before the first call. -/
def zeroed (blank : Descriptor) : HugeSession T A :=
  { heap := Huge.zeroed blank, live := ∅ }

/-- The block for a descriptor is in nobody's list, only live offsets are freed, and only
addresses in a live range fault. -/
def Legal (s : HugeSession T A) : HugeCall T A → Prop
  | .allocate _ _ block => ∀ t, block ∉ s.heap.list t
  | .free _ offset => offset ∈ s.live
  | .tryMap _ offset => ∃ t, ∃ a ∈ s.heap.list t,
      (s.heap.desc a).state = .live ∧ offset ∈ (s.heap.desc a).range

/-- Run one call. -/
def call (validate : Bool) (s : HugeSession T A) : HugeCall T A → Except Panic (HugeSession T A)
  | .allocate t size block =>
    match s.heap.allocateHuge validate t size block with
    | .ok (offset, h) => .ok { heap := h, live := insert offset s.live }
    | .error e => .error e
  | .free t offset =>
    match s.heap.free t offset with
    | .ok h => .ok { heap := h, live := s.live.erase offset }
    | .error e => .error e
  | .tryMap t offset =>
    match s.heap.tryMap validate t offset with
    | .ok h => .ok { heap := h, live := s.live }
    | .error e => .error e

/-- The thread stops between two calls, and a successor rebuilds what it kept in DRAM. -/
def restart (t : T) (s : HugeSession T A) : Except Panic (HugeSession T A) :=
  match s.heap.focus t with
  | .ok dram =>
    .ok { s with heap := { s.heap with dram := update s.heap.dram t dram } }
  | .error e => .error e

/-- One completed call. -/
def Step (validate : Bool) (s s' : HugeSession T A) : Prop :=
  ∃ c : HugeCall T A, s.Legal c ∧ s.call validate c = .ok s'

end HugeSession

end Cxlalloc
