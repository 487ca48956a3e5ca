/-
Claiming slots, one access at a time (`huge::Shared::claim`).

`Huge.claim` takes a call as atomic.  Here every load, store and compare-exchange of
`Shared::claim` is a step of its own, and the steps of different threads may come in any
order.  `Pc` is what a thread that is inside `claim` does next.  A thread whose request no
longer fits has panicked and takes no further step.
-/
import Cxlalloc.Huge

namespace Cxlalloc

/-- Where a thread is in `Shared::claim`. -/
inductive ClaimPc
  /-- Outside. -/
  | idle
  /-- Before `hint.load`. -/
  | loadHint (slotCount : ℕ)
  /-- At the head of the loop, with `i`. -/
  | casSlot (slotCount i : ℕ)
  /-- Before `hint.store`, having claimed slot `i`. -/
  | storeHint (slotCount i : ℕ)
  /-- `panic!("Out of virtual address space")`. -/
  | panicked
  deriving DecidableEq

/-- The huge heap while threads claim slots of it. -/
structure Claiming (T A : Type) where
  heap : Huge T A
  pc : T → ClaimPc

namespace Claiming

variable {T A : Type} [DecidableEq T]

/-- Before the first call. -/
def zeroed (blank : Descriptor) : Claiming T A :=
  { heap := Huge.zeroed blank, pc := fun _ => .idle }

/-- Thread `t` goes on at `pc`. -/
def goto (s : Claiming T A) (t : T) (pc : ClaimPc) : Claiming T A :=
  { s with pc := Function.update s.pc t pc }

/-- Thread `t` calls `Shared::claim`. -/
def start (t : T) (size : ℕ) (s : Claiming T A) : Claiming T A :=
  s.goto t (.loadHint (nextMultipleOf size sizeSlot / sizeSlot))

/-- The next access of thread `t`. -/
def access (t : T) (s : Claiming T A) : Claiming T A :=
  match s.pc t with
  | .idle => s
  | .loadHint slotCount => s.goto t (.casSlot slotCount s.heap.hint)
  | .casSlot slotCount i =>
    if i + slotCount ≤ slotsLen then
      match s.heap.slots i with
      | none =>
        { s with
          heap := { s.heap with
            slots := Function.update s.heap.slots i (some { id := t, slotCount := slotCount }) }
          : Claiming T A }.goto t (.storeHint slotCount i)
      | some claim => s.goto t (.casSlot slotCount (i + claim.slotCount))
    else s.goto t .panicked
  | .storeHint slotCount i =>
    { s with heap := { s.heap with hint := i + slotCount } : Claiming T A }.goto t .idle
  | .panicked => s

/-- One step of some thread: it makes its next access, or calls `claim` with a size whose
rounding fits a `usize`. -/
inductive Step (s : Claiming T A) : Claiming T A → Prop
  | access (t : T) : Step s (s.access t)
  | start (t : T) (size : ℕ) (hidle : s.pc t = .idle) (hpos : 0 < size)
      (hsize : nextMultipleOf size sizeSlot < 2 ^ 64) : Step s (s.start t size)

end Claiming

end Cxlalloc
