/-
A thread that crashes in the middle of a call, among threads that go on.

The accesses of thread `t` are single steps; it may stop after any of them, and what it
stored stays.  Between two of its accesses, and after the stop, the other threads run.
What they may do is `Leaves`: they keep their hands off the stacks, the record and the
slabs of `t`.  The calls of the heap do so (`HeapMem.leaves_of_run`).

Which slabs are whose is not written down in memory, so the model keeps it as ghost state.
A slab changes hands when a compare-exchange of `t` takes effect, and which one is told
by the record that `t` logged before it.
-/
import Cxlalloc.Lib.Chain
import Cxlalloc.Lib.Crash
import Cxlalloc.Allocator
import Cxlalloc.Proofs.BitSet
import Mathlib.Data.Set.Insert

namespace Cxlalloc

open Lib
open Lib.Prog

variable {T B : Type} [Bracket B]

/-- The memory of a heap, with ghost state about one thread. -/
structure Tracked (T B : Type) [Bracket B] extends Mem T B (HeapState B) where
  /-- Whether the compare-exchange of the last record took effect; `none` before the
  first record. -/
  cas : Option Bool
  /-- The slabs of the thread. -/
  mine : Set (Index B)
  /-- The slabs of the other threads, and those not handed out yet. -/
  theirs : Set (Index B)
  /-- The remote counters the thread changed, last one first: from what to what. -/
  frees : List (ℕ × ℕ)
  /-- The slab of the block that the thread is to free remotely. -/
  freeing : Option (Index B)

/-- `Allocator::recover`, for a thread whose record is one of this heap. -/
def Heap.recover [DecidableEq T] [Fintype T] [DecidableEq B] (cfg : Config) (t : T) :
    HeapCode T B Unit := do
  match ← lift (.loadLog t) with
  | none => pure ()
  | some state => Heap.recoverHeap cfg t state

namespace Tracked

/-- The slabs a compare-exchange hands to the thread, given the memory it leaves. -/
def acquired (m : Mem T B (HeapState B)) : Option (HeapState B) → Set (Index B)
  | some (.globalToUnsized i _) => {i}
  | some (.bumpToUnsized start _) =>
    {i | (start.getD .min).value ≤ i.value ∧ i.value < (m.bump.inner.getD .min).value}
  | some (.remote i _ true) => {i}
  | _ => ∅

/-- The slabs a compare-exchange takes from the thread: the batch, and what hangs off it. -/
def released (m : Mem T B (HeapState B)) : Option (HeapState B) → Set (Index B)
  | some (.unsizedToGlobal i _) => {j | ∃ xs, Seg m.next (some i) xs (some j)}
  | _ => ∅

/-- The counters changed so far, with one more compare-exchange. -/
def swapped {α : Type} (x : Tracked T B) : Obj B α → Word T α → Word T α → List (ℕ × ℕ)
  | .remote _, old, new => (old.inner.free, new.inner.free) :: x.frees
  | _, _, _ => x.frees

/-- The ghost state after an access that left memory `m`. -/
def advance (t : T) (x : Tracked T B) (m : Mem T B (HeapState B)) {β : Type} :
    Access T B β → β → Tracked T B
  | .storeLog _ _, _ => { x with toMem := m, cas := some false }
  | .casWord o old new, none =>
    { x with
      toMem := m
      cas := some true
      mine := x.mine \ released m (m.log t) ∪ acquired m (m.log t)
      theirs := x.theirs \ acquired m (m.log t)
      frees := x.swapped o old new }
  | _, _ => { x with toMem := m }

/-- What each access of thread `t` does. -/
def handle [DecidableEq T] [DecidableEq B] (t : T) (β : Type) (act : Access T B β)
    (x : Tracked T B) : Except Panic (β × Tracked T B) :=
  match Mem.handle β act x.toMem with
  | .ok (b, m) => .ok (b, x.advance t m act b)
  | .error e => .error e

/-- The global stack ends, and holds the slabs that are nobody's.  Indices have 32 bits. -/
def Apart (x : Tracked T B) : Prop :=
  (∃ xs, Seg x.next x.global.inner xs none ∧ ∀ i, i ∈ xs ↔ i ∉ x.mine ∧ i ∉ x.theirs) ∧
    (∀ i ∈ x.mine, i ∉ x.theirs) ∧ ∀ i, i ∉ x.theirs → i.value < 2 ^ 32

/-- All blocks of a slab are in its bitset. -/
def Full (x : Tracked T B) (i : Index B) : Prop :=
  (x.bits i).elems = Finset.range (Bracket.count (x.sizeClass i))

/-- A slab with a block that the thread has not freed yet is counted, and stays with the
others. -/
def Pending (x : Tracked T B) (i : Index B) : Prop :=
  i ∈ x.theirs ∧ i ∉ x.mine ∧ 0 < (x.remote i).inner.free

/-- The other threads ran, and left alone what is of thread `t`. -/
structure Leaves (t : T) (x y : Tracked T B) : Prop where
  head : ∀ s : StackId T B, s.thread = t → y.head s = x.head s
  len : ∀ s : StackId T B, s.thread = t → y.len s = x.len s
  log : y.log t = x.log t
  version : y.help t t = x.help t t
  cas : y.cas = x.cas
  mine : y.mine = x.mine
  frees : y.frees = x.frees
  freeing : y.freeing = x.freeing
  next : ∀ i ∈ x.mine, y.next i = x.next i
  owner : ∀ i ∈ x.mine, y.owner i = x.owner i
  sizeClass : ∀ i ∈ x.mine, y.sizeClass i = x.sizeClass i
  bits : ∀ i ∈ x.mine, y.bits i = x.bits i
  /-- The counter of a slab moves only with a live block. -/
  counter : ∀ i ∈ x.mine, x.Full i → (y.remote i).inner = (x.remote i).inner
  /-- They take slabs from the global stack and put their own there. -/
  apart : x.Apart → y.Apart
  /-- They free only their own blocks. -/
  pending : ∀ i ∈ x.freeing, x.frees = [] → x.Pending i → y.Pending i

theorem Leaves.refl (t : T) (x : Tracked T B) : Leaves t x x := by
  constructor <;> simp

theorem Leaves.trans {t : T} {x y z : Tracked T B} (hxy : Leaves t x y) (hyz : Leaves t y z) :
    Leaves t x z where
  head s hs := (hyz.head s hs).trans (hxy.head s hs)
  len s hs := (hyz.len s hs).trans (hxy.len s hs)
  log := hyz.log.trans hxy.log
  version := hyz.version.trans hxy.version
  cas := hyz.cas.trans hxy.cas
  mine := hyz.mine.trans hxy.mine
  frees := hyz.frees.trans hxy.frees
  freeing := hyz.freeing.trans hxy.freeing
  next i hi := (hyz.next i (hxy.mine ▸ hi)).trans (hxy.next i hi)
  owner i hi := (hyz.owner i (hxy.mine ▸ hi)).trans (hxy.owner i hi)
  sizeClass i hi := (hyz.sizeClass i (hxy.mine ▸ hi)).trans (hxy.sizeClass i hi)
  bits i hi := (hyz.bits i (hxy.mine ▸ hi)).trans (hxy.bits i hi)
  counter i hi hfull := by
    have hfull' : y.Full i := by
      unfold Full
      rw [hxy.bits i hi, hxy.sizeClass i hi]
      exact hfull
    exact (hyz.counter i (hxy.mine ▸ hi) hfull').trans (hxy.counter i hi hfull)
  apart h := hyz.apart (hxy.apart h)
  pending i hi hfrees h :=
    hyz.pending i (hxy.freeing ▸ hi) (hxy.frees.trans hfrees) (hxy.pending i hi hfrees h)

/-- Before a call of thread `t`. -/
def start (t : T) (m : Mem T B (HeapState B)) (freeing : Option (Index B)) : Tracked T B :=
  { m with
    cas := none
    mine := {i | ∃ k xs, Seg m.next (m.head (.of t k)) xs none ∧ i ∈ xs}
    theirs := {i | (¬∃ k xs, Seg m.next (m.head (.of t k)) xs none ∧ i ∈ xs) ∧
      ¬∃ xs, Seg m.next m.global.inner xs none ∧ i ∈ xs}
    frees := []
    freeing := freeing }

end Tracked

/-- What the threads other than `t` may do between two accesses. -/
structure Others (T B : Type) [Bracket B] (t : T) where
  acts : Tracked T B → Tracked T B → Prop
  refl : ∀ x, acts x x
  trans : ∀ x y z, acts x y → acts y z → acts x z
  leaves : ∀ x y, acts x y → Tracked.Leaves t x y

namespace Others

/-- The other threads stand still. -/
def idle (t : T) : Others T B t where
  acts := Eq
  refl _ := rfl
  trans _ _ _ h₁ h₂ := h₁.trans h₂
  leaves x _ h := h ▸ Tracked.Leaves.refl t x

variable {t : T} [DecidableEq T] [Fintype T] [DecidableEq B]

/-- `Detectable::detect` answers whether the compare-exchange took effect. -/
def Detects (e : Others T B t) {α : Type} (o : Obj B α) (version : Version) (x : Tracked T B) :
    Prop :=
  wpc (Tracked.handle t) e.acts (Detectable.detect t o version) (fun took _ => x.cas = some took)
    (fun _ => True) (fun _ => False) x

/-- It does so for the record that recovery finds. -/
def Exact (e : Others T B t) (x : Tracked T B) : HeapState B → Prop
  | .globalToUnsized _ version => e.Detects .global version x
  | .bumpToUnsized _ version => e.Detects .bump version x
  | .unsizedToGlobal _ version => e.Detects .global version x
  | .remote i version _ => e.Detects (.remote i) version x
  | .detach i version => e.Detects (.remote i) version x
  | _ => True

end Others

end Cxlalloc
