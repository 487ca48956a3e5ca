/-
Huge allocations in a release build (`allocate_huge`, `huge.rs`).

`Huge` computes with exact numbers.  Here the arithmetic on the way of an allocation is that
of a 64-bit `usize` without overflow checks: sums, products and roundings wrap.  A call that
panics leaves the heap as it is at that moment, so each function returns the heap next to its
result, whether it failed or not.

`free` and `try_map` only read descriptors that are already there, and are those of `Huge`.
-/
import Cxlalloc.Huge

namespace Cxlalloc

open Function

/-- What a call returns or why it stops, and the heap it leaves. -/
abbrev Outcome (T A α : Type) : Type :=
  Except Panic α × Huge T A

/-- Go on with what a call returns, in the heap it leaves. -/
def Outcome.bind {T A α β : Type} (r : Outcome T A α) (f : α → Huge T A → Outcome T A β) :
    Outcome T A β :=
  match r with
  | (.ok a, h) => f a h
  | (.error e, h) => (.error e, h)

namespace Wrapping

/-- What is left of a number in a `usize`. -/
def usize (n : ℕ) : ℕ :=
  n % 2 ^ 64

/-- `usize::next_multiple_of`. -/
def nextMultipleOf (a m : ℕ) : ℕ :=
  usize (Cxlalloc.nextMultipleOf a m)

/-- `(offset, offset + size - 1).to_interval_set()`. -/
def allocation (offset size : ℕ) : Finset ℕ :=
  Finset.Icc offset (usize (2 ^ 64 - 1 + (offset + size)))

/-- `Allocator::cover`. -/
def cover (d : Dram) (offset size : ℕ) : Except Panic Dram :=
  if allocation offset size ⊆ d.free then .ok { d with free := d.free \ allocation offset size }
  else .error .coverTaken

/-- `Allocator::uncover`. -/
def uncover (d : Dram) (offset size : ℕ) : Dram :=
  { d with free := d.free ∪ allocation offset size }

/-- `Allocator::claim`. -/
def claimRange (d : Dram) (slot slotCount : ℕ) : Dram :=
  uncover d (usize (slot * sizeSlot)) (usize (slotCount * sizeSlot))

/-- `Allocator::allocate`. -/
def allocateRange (d : Dram) (size : ℕ) : Except Panic (Option (Descriptor × Dram)) :=
  match Dram.firstFit d.free size with
  | none => .ok none
  | some offset =>
    match cover d offset size with
    | .error e => .error e
    | .ok d =>
      .ok (some
        ({ index := d.index + 1, offset := offset, size := size, state := .live },
          { d with index := d.index + 1 }))

variable {T A : Type} [FinEnum T] [DecidableEq A]

/-- `Huge::reuse` for one descriptor. -/
def reuseOne (id : T) : Huge T A × Option A → A → Huge T A × Option A
  | (h, safe), a =>
    match (h.desc a).state with
    | .live => (h, safe)
    | .free =>
      if h.hazardous (h.desc a).offset then (h, safe)
      else
        ({ h with
            dram := update h.dram id
              (uncover (h.dram id) (h.desc a).offset (h.desc a).size)
            desc := update h.desc a { h.desc a with state := .safe } },
          safe.or (some a))
    | .safe => (h, safe.or (some a))

/-- `Huge::reuse`. -/
def reuse (id : T) (h : Huge T A) : Huge T A × Option A :=
  (h.list id).foldl (reuseOne id) (h, none)

/-- The loop of `Shared::claim`, followed for `n` slots. -/
def claimSlot (id : T) (slotCount : ℕ) (h : Huge T A) : ℕ → ℕ → Outcome T A ℕ
  | 0, _ => (.error .diverge, h)
  | n + 1, i =>
    if usize (i + slotCount) ≤ slotsLen then
      if i < slotsLen then
        match h.slots i with
        | none =>
          (.ok i,
            { h with
              slots := update h.slots i (some { id := id, slotCount := slotCount })
              hint := usize (i + slotCount) })
        | some claim => claimSlot id slotCount h n (usize (i + claim.slotCount))
      else (.error .outOfBounds, h)
    else (.error .outOfAddressSpace, h)

/-- How many slots `Huge::claim` asks for. -/
def slotCount (size : ℕ) : ℕ :=
  nextMultipleOf size sizeSlot / sizeSlot

/-- `Huge::claim`. -/
def claim (id : T) (size : ℕ) (h : Huge T A) : Outcome T A Unit :=
  (claimSlot id (slotCount size) h (slotsLen + 1) h.hint).bind fun slot h =>
    (.ok (), { h with
      dram := update h.dram id (claimRange (h.dram id) slot (slotCount size)) })

/-- The loop of `Huge::allocate`, followed for `n` rounds. -/
def allocateLoop (id : T) (size : ℕ) : ℕ → Huge T A → Outcome T A Descriptor
  | 0, h => (.error .diverge, h)
  | n + 1, h =>
    match allocateRange (h.dram id) size with
    | .error e => (.error e, h)
    | .ok none => (claim id size h).bind fun _ h => allocateLoop id size n h
    | .ok (some (descriptor, dram)) =>
      (.ok descriptor, { h with dram := update h.dram id dram })

/-- The descriptor is written, and put on the list if it is new. -/
def publish (id : T) (out : A) (reuse : Bool) (descriptor : Descriptor) (h : Huge T A) :
    Huge T A :=
  { h with
    desc := update h.desc out descriptor
    list := if reuse then h.list else update h.list id (out :: h.list id) }

/-- `Huge::allocate`. -/
def allocate (validate : Bool) (id : T) (size : ℕ) (out : A) (reuse : Bool) (h : Huge T A) :
    Outcome T A ℕ :=
  (allocateLoop id size 2 (h.refresh id)).bind fun descriptor h =>
    let h := publish id out reuse descriptor h
    match h.insertHazard validate id descriptor.offset with
    | .error e => (.error e, h)
    | .ok h => (.ok descriptor.offset, h)

/-- `Allocator::allocate_huge`. -/
def allocateHuge (validate : Bool) (id : T) (size : ℕ) (block : A) (h : Huge T A) :
    Outcome T A ℕ :=
  let size := nextMultipleOf size sizePage
  if size = 0 then (.error .unwrapNone, h)
  else
    match reuse id h with
    | (h, some a) => allocate validate id size a true h
    | (h, none) => allocate validate id size block false h

/-! ### Runs -/

/-- The session after an allocation, failed or not. -/
def allocated (s : HugeSession T A) : Outcome T A ℕ → HugeSession T A
  | (.ok offset, h) => { heap := h, live := insert offset s.live }
  | (.error _, h) => { s with heap := h }

/-- One call: an allocation, failed or not, of a size that `G` admits, or a completed call of
another kind. -/
inductive Step (validate : Bool) (G : HugeSession T A → ℕ → Prop) (s : HugeSession T A) :
    HugeSession T A → Prop
  | allocate (t : T) (size : ℕ) (block : A) (hsize : size < 2 ^ 64) (hG : G s size)
      (hblock : ∀ u, block ∉ s.heap.list u) :
      Step validate G s (allocated s (allocateHuge validate t size block s.heap))
  | free {s' : HugeSession T A} (t : T) (offset : ℕ) (hlegal : s.Legal (.free t offset))
      (hcall : s.call validate (.free t offset) = .ok s') : Step validate G s s'
  | tryMap {s' : HugeSession T A} (t : T) (offset : ℕ) (hlegal : s.Legal (.tryMap t offset))
      (hcall : s.call validate (.tryMap t offset) = .ok s') : Step validate G s s'

/-- Rounding the request up to slots does not wrap, or the call fails before it claims: the
rounding to pages already gives zero, or all slots are gone. -/
def Fits (s : HugeSession T A) (size : ℕ) : Prop :=
  size ≤ 2 ^ 64 - sizeSlot ∨ 2 ^ 64 - sizePage < size ∨ s.heap.hint = slotsLen

end Wrapping

end Cxlalloc
