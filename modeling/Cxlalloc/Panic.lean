/-
The ways a call can stop without returning.

Every `unwrap`, `assert!`, `panic!`, `todo!` and arithmetic overflow on the paths
modelled here ends in one of these.  The ones of the `validate!` family are
compiled in only with the `validate` feature or `debug_assertions`, and overflow stops
a call only with overflow checks.
-/
namespace Cxlalloc

/-- Why a call did not return. -/
inductive Panic
  /-- `unwrap` of a `None`. -/
  | unwrapNone
  /-- `checked_add(count).unwrap()` in `Index::add`: the 32-bit index is used up. -/
  | indexOverflow
  /-- An addition or subtraction on `usize` that leaves its range, in a build with overflow
  checks (`debug_assertions`).  Without them it wraps and the call goes on. -/
  | overflow
  /-- Division by a class size of zero. -/
  | divideByZero
  /-- `validate_eq!(.., "Double free")` in `BitSet::set`. -/
  | doubleFree
  /-- `validate!(.., "Double allocate")` in `BitSet::unset`. -/
  | doubleAllocate
  /-- One of the three consistency checks of `BitSet::validate`. -/
  | inconsistentBitSet
  /-- `validate_eq!(self.owner(), None)` in `Local::own`. -/
  | ownOwned
  /-- `validate_eq!(self.owner(), Some(id))` in `Local::disown`. -/
  | disownForeign
  /-- `validate!(self.owned.is_valid(..))`. -/
  | invalidOwned
  /-- `validate!(meta.free > 0)` in `Heap::free_remote`. -/
  | remoteExhausted
  /-- `panic!("removing non-existent slab ..")`. -/
  | removeMissing
  /-- `assert_eq!` on the version in `Detectable::detect`. -/
  | detectVersion
  /-- `todo!()` in `recover_heap`. -/
  | todo
  /-- `panic!("Out of virtual address space")`. -/
  | outOfAddressSpace
  /-- `assert_eq!` in `huge::Allocator::cover`. -/
  | coverTaken
  /-- `validate!(!self.contains(offset))` in `Owned::insert`. -/
  | hazardTaken
  /-- `validate_eq!(.., "Hazard offsets are unique")` in `Owned::validate`. -/
  | hazardRepeated
  /-- An index past the end of a fixed array. -/
  | outOfBounds
  /-- `assert!(.., "DAX device {index} exhausted ..")` in `Dax::open`. -/
  | deviceExhausted
  /-- A loop that does not end, or a compare-exchange retried more often than the
  run of the model follows. -/
  | diverge
  deriving DecidableEq, Repr

@[simp]
theorem ok_bind {α β : Type} {a : α} {f : α → Except Panic β} : (Except.ok a >>= f) = f a := rfl

@[simp]
theorem error_bind {α β : Type} {e : Panic} {f : α → Except Panic β} :
    (Except.error e >>= f) = .error e := rfl

/-- A sequence that ends well: so did its first part. -/
theorem bind_eq_ok {α β : Type} {x : Except Panic α} {f : α → Except Panic β} {b : β}
    (h : x >>= f = .ok b) : ∃ a, x = .ok a ∧ f a = .ok b := by
  cases x with
  | error e => cases h
  | ok a => exact ⟨a, rfl, h⟩

/-- What an access answers, and the state after it. -/
theorem ok_inj {ε α σ : Type} {a b : α} {s s' : σ}
    (h : (.ok (a, s) : Except ε (α × σ)) = .ok (b, s')) : a = b ∧ s = s' :=
  Prod.mk.inj (Except.ok.inj h)

end Cxlalloc
