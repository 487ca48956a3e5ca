/-
The huge heap, step by step (`huge.rs`).

`Huge` takes a call as one step.  Here each load and store of a descriptor's state, each
read and write of its range, each operation on an array of hazards and each call of `map`
and `unmap` is a step, and any number of threads take them in any order.

What only one thread sees is not split further: its free set in DRAM is searched, claimed
for and taken from in one step, and given to in the step that marks the descriptor `Safe`.
A list only grows at its front, so a walk behind a loaded head sees the list as it was.

Next to the heap, `HugeMem` notes how far the calls have come: which blocks are handed out,
which are being freed or faulted in, and whose hazard a `refresh` has dropped.
-/
import Cxlalloc.Lib.Pool
import Cxlalloc.Huge

namespace Cxlalloc

open Lib
open Lib.Prog (lift)
open Function

/-- The accesses of the huge heap. -/
inductive HugeAct (T A : Type) : Type → Type 1
  /-- `Owned::head`, with the links behind it. -/
  | loadHead (id : T) : HugeAct T A (List A)
  | loadState (a : A) : HugeAct T A DescriptorState
  /-- `offset` and `size`. -/
  | loadRange (a : A) : HugeAct T A (ℕ × ℕ)
  | storeState (a : A) (state : DescriptorState) : HugeAct T A Unit
  /-- `index`, `offset` and `size`. -/
  | storeRange (a : A) (d : Descriptor) : HugeAct T A Unit
  /-- `Owned::contains`. -/
  | contains (id : T) (offset : ℕ) : HugeAct T A Bool
  /-- `Owned::insert`. -/
  | insert (offset : ℕ) : HugeAct T A Unit
  /-- `Owned::swap_remove`, and what is to be unmapped if it finds the offset. -/
  | swapRemove (offset : ℕ) (next : Option A) : HugeAct T A Bool
  /-- `Shared::find`. -/
  | findOwner (offset : ℕ) : HugeAct T A (Option T)
  /-- `Allocator::uncover` and the store of `Safe`. -/
  | retire (a : A) : HugeAct T A Unit
  /-- The rounds of `Allocator::allocate` and `Huge::claim`. -/
  | allocateRange (size : ℕ) : HugeAct T A Descriptor
  /-- `Huge::set`. -/
  | link (a : A) : HugeAct T A Unit
  /-- `Random::map`. -/
  | map (offset size : ℕ) : HugeAct T A Unit
  /-- `Random::unmap`, and the descriptor whose hazard `refresh` has dropped for it. -/
  | unmap (refreshed : Option A) (offset size : ℕ) : HugeAct T A Unit
  /-- `allocate` returns the range of a descriptor. -/
  | returned (a : A) : HugeAct T A Unit
  | panic (e : Panic) : HugeAct T A Empty

namespace HugeAct

variable {T A α : Type} [FinEnum T]

/-- A call that stops. -/
def stop (e : Panic) : Prog (HugeAct T A) α := do
  let stopped ← lift (.panic e)
  stopped.elim

/-- `Huge::refresh` on the descriptors of one list. -/
def refreshList : List A → Prog (HugeAct T A) Unit
  | [] => pure ()
  | a :: l => do
    if (← lift (.loadState a)) = .free then
      let (offset, _) ← lift (.loadRange a)
      if ← lift (.swapRemove offset (some a)) then
        let (offset, size) ← lift (.loadRange a)
        lift (.unmap (some a) offset size)
        refreshList l
      else refreshList l
    else refreshList l

/-- `Huge::refresh` on the lists of some threads. -/
def refreshFrom : List T → Prog (HugeAct T A) Unit
  | [] => pure ()
  | id :: ids => do
    let l ← lift (.loadHead id)
    refreshList l
    refreshFrom ids

/-- `Huge::refresh`. -/
def refresh : Prog (HugeAct T A) Unit :=
  refreshFrom (FinEnum.toList T)

/-- `self.owned.iter().any(|owned| owned.contains(offset))`. -/
def hazardous (offset : ℕ) : List T → Prog (HugeAct T A) Bool
  | [] => pure false
  | id :: ids => do
    if ← lift (.contains id offset) then pure true else hazardous offset ids

/-- `Huge::reuse` on the rest of the list. -/
def reuseList : Option A → List A → Prog (HugeAct T A) (Option A)
  | safe, [] => pure safe
  | safe, a :: l => do
    match ← lift (.loadState a) with
    | .live => reuseList safe l
    | .free => do
      let (offset, _) ← lift (.loadRange a)
      -- Protected by hazard pointer
      if ← hazardous offset (FinEnum.toList T) then reuseList safe l
      else
        lift (.retire a)
        reuseList (safe.or (some a)) l
    | .safe => reuseList (safe.or (some a)) l

/-- `Huge::reuse`. -/
def reuse (id : T) : Prog (HugeAct T A) (Option A) := do
  let l ← lift (.loadHead id)
  reuseList none l

/-- The walk of `Huge::find`. -/
def walk (offset : ℕ) : List A → Prog (HugeAct T A) (Option A)
  | [] => pure none
  | a :: l => do
    let (lower, size) ← lift (.loadRange a)
    if lower ≤ offset ∧ offset < lower + size then pure (some a) else walk offset l

/-- `Huge::find`. -/
def find (offset : ℕ) : Prog (HugeAct T A) (Option A) := do
  match ← lift (.findOwner offset) with
  | none => pure none
  | some id => do
    let l ← lift (.loadHead id)
    walk offset l

/-- `Huge::allocate` into the descriptor `out`. -/
def allocateAt (size : ℕ) (out : A) (reuse : Bool) : Prog (HugeAct T A) Unit := do
  refresh
  let d ← lift (.allocateRange size)
  lift (.storeState out .live)
  lift (.storeRange out d)
  if reuse then pure () else lift (.link out)
  let (offset, _) ← lift (.loadRange out)
  lift (.insert offset)
  let (offset, size) ← lift (.loadRange out)
  lift (.map offset size)
  lift (.returned out)

/-- `Allocator::allocate_huge`, given the block the small heap would provide for a new
descriptor. -/
def allocate (id : T) (size : ℕ) (block : A) : Prog (HugeAct T A) Unit :=
  let size := nextMultipleOf size sizePage
  if size = 0 ∨ 2 ^ 64 ≤ size then stop .unwrapNone
  else do
    match ← reuse id with
    | some a => allocateAt size a true
    | none => allocateAt size block false

/-- `Huge::free`. -/
def free (offset : ℕ) : Prog (HugeAct T A) Unit := do
  refresh
  match ← find offset with
  | none => stop .unwrapNone
  | some a => do
    let (offset, size) ← lift (.loadRange a)
    lift (.unmap none offset size)
    let (offset, _) ← lift (.loadRange a)
    let _ ← lift (.swapRemove offset none)
    lift (.storeState a .free)

/-- `Huge::try_map`. -/
def tryMap (offset : ℕ) : Prog (HugeAct T A) Unit := do
  match ← find offset with
  | none => pure ()
  | some a => do
    let (offset, _) ← lift (.loadRange a)
    lift (.insert offset)
    let (offset, size) ← lift (.loadRange a)
    lift (.map offset size)

end HugeAct

/-- A call of a thread.  A free and a fault come with the descriptor of the block they are
about, which the code does not see. -/
inductive HugeOp (A : Type) : Type 1
  | allocate (size : ℕ) (block : A)
  | free (offset : ℕ) (a : A)
  | tryMap (offset : ℕ) (a : A)

/-- The huge heap, and how far the calls have come. -/
structure HugeMem (T A : Type) extends Huge T A where
  /-- Marked `Live`, with the range it had before. -/
  stale : A → Bool
  /-- The block a thread has for a new descriptor. -/
  block : T → Option A
  /-- Returned by `allocate`, and no free of it called since. -/
  handed : A → Bool
  /-- What a thread is freeing, and has not marked `Free` yet. -/
  freeing : T → Option A
  /-- What a thread has faulted on, and has no hazard for yet. -/
  faulting : T → Option A
  /-- The descriptor whose hazard a thread's `refresh` has dropped, and which it has not
  unmapped yet. -/
  unmapping : T → Option A

namespace HugeMem

variable {T A : Type} [FinEnum T] [DecidableEq A]

/-- Before the first call. -/
def zeroed (blank : Descriptor) : HugeMem T A :=
  { Huge.zeroed blank with
    stale := fun _ => false
    block := fun _ => none
    handed := fun _ => false
    freeing := fun _ => none
    faulting := fun _ => none
    unmapping := fun _ => none }

/-- What each access of thread `t` does. -/
def handle (validate : Bool) (t : T) (β : Type) :
    HugeAct T A β → HugeMem T A → Except Panic (β × HugeMem T A)
  | .loadHead id, m => .ok (m.list id, m)
  | .loadState a, m => .ok ((m.desc a).state, m)
  | .loadRange a, m => .ok (((m.desc a).offset, (m.desc a).size), m)
  | .storeState a .live, m =>
    .ok ((), { m with
      desc := update m.desc a { m.desc a with state := .live }
      stale := update m.stale a true })
  | .storeState a state, m =>
    .ok ((), { m with
      desc := update m.desc a { m.desc a with state := state }
      freeing := update m.freeing t none })
  | .storeRange a d, m =>
    .ok ((), { m with
      desc := update m.desc a { d with state := (m.desc a).state }
      stale := update m.stale a false })
  | .contains id offset, m => .ok (decide (offset ∈ m.hazards id), m)
  | .insert offset, m =>
    match m.toHuge.insertHazard validate t offset with
    | .ok h => .ok ((), { m with toHuge := h, faulting := update m.faulting t none })
    | .error e => .error e
  | .swapRemove offset next, m =>
    if offset ∈ m.hazards t then
      .ok (true, { m with
        hazards := update m.hazards t (swapRemove (m.hazards t) offset)
        unmapping := update m.unmapping t next })
    else .ok (false, m)
  | .findOwner offset, m => .ok (m.toHuge.findOwner offset, m)
  | .retire a, m =>
    .ok ((), { m with
      dram := update m.dram t ((m.dram t).uncover (m.desc a).offset (m.desc a).size)
      desc := update m.desc a { m.desc a with state := .safe } })
  | .allocateRange size, m =>
    match m.toHuge.allocateRange t size 2 with
    | .ok (d, h) => .ok (d, { m with toHuge := h })
    | .error e => .error e
  | .link a, m =>
    .ok ((), { m with
      list := update m.list t (a :: m.list t)
      block := update m.block t none })
  | .map _ _, m => .ok ((), m)
  | .unmap _ _ _, m => .ok ((), { m with unmapping := update m.unmapping t none })
  | .returned a, m =>
    .ok ((), { m with
      handed := update m.handed a true
      block := update m.block t none })
  | .panic e, _ => .error e

/-- Threads that allocate, free what is handed out, and fault on it.  A block is not freed
while a thread faults on it: that thread is still using it. -/
def system (validate : Bool) : System T (HugeAct T A) (HugeMem T A) Panic where
  Call := HugeOp A
  code t c :=
    match c with
    | .allocate size block => HugeAct.allocate t size block
    | .free offset _ => HugeAct.free offset
    | .tryMap offset _ => HugeAct.tryMap offset
  legal t c m :=
    match c with
    | .allocate _ block =>
      (∀ u, block ∉ m.list u) ∧ ∀ u, u ≠ t → m.block u ≠ some block
    | .free offset a =>
      m.handed a = true ∧ (m.desc a).offset = offset ∧ ∀ u, m.faulting u ≠ some a
    | .tryMap offset a => m.handed a = true ∧ offset ∈ (m.desc a).range
  enter t c m :=
    match c with
    | .allocate _ block => { m with block := update m.block t (some block) }
    | .free _ a =>
      { m with handed := update m.handed a false, freeing := update m.freeing t (some a) }
    | .tryMap _ a => { m with faulting := update m.faulting t (some a) }
  handle := handle validate

/-- `reuse` marks no descriptor `Safe` that a `refresh` is about to unmap. -/
def NotUnmapping : Guard T (HugeAct T A) (HugeMem T A) :=
  fun _ _ act m =>
    match act with
    | .retire a => ∀ u, m.unmapping u ≠ some a
    | _ => True

instance {validate : Bool} (t : T) (c : (system (T := T) (A := A) validate).Call)
    (m : HugeMem T A) : Decidable ((system validate).legal t c m) :=
  match c with
  | .allocate _ block =>
    inferInstanceAs (Decidable ((∀ u, block ∉ m.list u) ∧ ∀ u, u ≠ t → m.block u ≠ some block))
  | .free offset a =>
    inferInstanceAs (Decidable (m.handed a = true ∧ (m.desc a).offset = offset ∧
      ∀ u, m.faulting u ≠ some a))
  | .tryMap offset a =>
    inferInstanceAs (Decidable (m.handed a = true ∧ offset ∈ (m.desc a).range))

instance (t : T) (β : Type) (act : HugeAct T A β) (m : HugeMem T A) :
    Decidable (NotUnmapping t β act m) := by
  apply HugeAct.casesOn (motive := fun β act => Decidable (NotUnmapping t β act m)) act
  all_goals intros; unfold NotUnmapping; infer_instance

end HugeMem

end Cxlalloc
