/-
Completed calls on one heap.

A `Session` is a heap together with the blocks its callers hold.  A step of a session
is one call that returned, taken as atomic: an allocation of some class by some thread,
or a free of a block that is held.  What the calls share beyond the heap (the help
array and the recovery records) may have been changed by anything in between, so each
step starts from arbitrary values of both.  In a `Running` session nothing comes in between.
-/
import Cxlalloc.Lib.Script
import Cxlalloc.Heap
import Mathlib.Data.Finset.Insert

namespace Cxlalloc

variable {T B R : Type} [Bracket B] [DecidableEq T] [DecidableEq B] [FromState B R]

/-- The records of one heap alone. -/
instance : FromState B (HeapState B) := ⟨id⟩

/-- The accesses of one heap whose records are its own. -/
abbrev Access (T B : Type) [Bracket B] : Type → Type 1 := Act T B (HeapState B)

/-- A program over them. -/
abbrev HeapCode (T B : Type) [Bracket B] : Type → Type 1 := Code T B (HeapState B)

instance : DecidableEq (Offset B) := fun o p =>
  decidable_of_iff (o.value = p.value) ⟨Offset.ext, congrArg Offset.value⟩

/-- `peek` and `pop`, as `allocate_untyped` and `allocate_large` combine them. -/
def Heap.allocateBlock (cfg : Config) (t : T) (c : B) : Code T B R (Option (Offset B)) := do
  match ← Heap.peek cfg t c with
  | none => pure none
  | some (index, block) => do
    let offset ← Heap.pop cfg t c index block
    pure (some offset)

/-- A free by the owner that completes a slab finds it where `sized_to_unsized` keeps
the length right: with no free block yet, or on top of its stack. -/
def Heap.Tidy (t : T) (h : Heap T B) (i : Index B) : Prop :=
  h.owner i = some t → (h.bits i).len + 1 = Bracket.count (h.sizeClass i) →
    (h.bits i).len = 0 ∨ h.head (.sized t (h.sizeClass i)) = some i

instance (t : T) (h : Heap T B) (i : Index B) : Decidable (h.Tidy t i) :=
  inferInstanceAs (Decidable (_ → _ → _ ∨ _))

/-- A heap and the blocks that are live. -/
structure Session (T B : Type) [Bracket B] where
  heap : Heap T B
  live : Finset (Offset B)

/-- A call on one heap. -/
inductive Call (T B : Type)
  | allocate (t : T) (c : B)
  | free (t : T) (offset : Offset B)

namespace Session

/-- Before the first call. -/
def zeroed : Session T B :=
  { heap := Heap.zeroed, live := ∅ }

/-- A caller frees only what it holds. -/
def Legal (s : Session T B) : Call T B → Prop
  | .allocate _ _ => True
  | .free _ offset => offset ∈ s.live

instance (s : Session T B) (c : Call T B) : Decidable (s.Legal c) :=
  match c with
  | .allocate _ _ => inferInstanceAs (Decidable True)
  | .free _ offset => inferInstanceAs (Decidable (offset ∈ s.live))

/-- Run one call. -/
def call (cfg : Config) (help : T → T → Version) (log : T → Option R) (s : Session T B) :
    Call T B → Except Panic (Session T B)
  | .allocate t c =>
    match (Heap.allocateBlock cfg t c : Code T B R _).exec Mem.handle
        { s.heap with help := help, log := log } with
    | .ok (some offset, m) => .ok { heap := m.toHeap, live := insert offset s.live }
    | .ok (none, m) => .ok { heap := m.toHeap, live := s.live }
    | .error e => .error e
  | .free t offset =>
    match (Heap.free cfg t offset : Code T B R _).exec Mem.handle
        { s.heap with help := help, log := log } with
    | .ok ((), m) => .ok { heap := m.toHeap, live := s.live.erase offset }
    | .error e => .error e

/-- How the call fails, if it does. -/
def panicOf (cfg : Config) (help : T → T → Version) (log : T → Option R) (s : Session T B)
    (c : Call T B) : Option Panic :=
  match s.call cfg help log c with
  | .ok _ => none
  | .error e => some e

/-- A free, if the call is one, is tidy. -/
def TidyCall (s : Session T B) : Call T B → Prop
  | .allocate _ _ => True
  | .free t offset => ∀ i ∈ offset.intoIndex, s.heap.Tidy t i

instance (s : Session T B) (c : Call T B) : Decidable (s.TidyCall c) :=
  match c with
  | .allocate _ _ => inferInstanceAs (Decidable True)
  | .free t offset => inferInstanceAs (Decidable (∀ i ∈ offset.intoIndex, s.heap.Tidy t i))

/-- One completed call of a kind `P`. -/
def StepWhere (R : Type) [FromState B R] (P : Session T B → Call T B → Prop) (cfg : Config)
    (s s' : Session T B) : Prop :=
  ∃ (c : Call T B) (help : T → T → Version) (log : T → Option R),
    s.Legal c ∧ P s c ∧ s.call cfg help log c = .ok s'

/-- One completed call. -/
def Step (R : Type) [FromState B R] (cfg : Config) : Session T B → Session T B → Prop :=
  StepWhere R (fun _ _ => True) cfg

/-- One completed call that keeps the lengths right. -/
def TidyStep (R : Type) [FromState B R] (cfg : Config) : Session T B → Session T B → Prop :=
  StepWhere R TidyCall cfg

end Session

/-! ### Runs with all of the memory -/

/-- The program of a call, and what it makes of the live blocks. -/
def Call.code (cfg : Config) : Call T B → Code T B R (Finset (Offset B) → Finset (Offset B))
  | .allocate t c => do
    match ← Heap.allocateBlock cfg t c with
    | some offset => pure (insert offset)
    | none => pure id
  | .free t offset => do
    Heap.free cfg t offset
    pure fun live => live.erase offset

/-- A session with the help array and the records, as its calls leave them. -/
structure Running (T B R : Type) [Bracket B] extends Session T B where
  help : T → T → Version
  log : T → Option R

namespace Running

/-- Before the first call. -/
def zeroed : Running T B R :=
  { toSession := .zeroed, help := fun _ _ => 0, log := fun _ => none }

def mem (s : Running T B R) : Mem T B R :=
  { s.heap with help := s.help, log := s.log }

/-- Run one call on the memory that the last one left. -/
def call (cfg : Config) (s : Running T B R) (c : Call T B) : Except Panic (Running T B R) :=
  match (c.code cfg : Code T B R _).exec Mem.handle s.mem with
  | .ok (f, m) => .ok { heap := m.toHeap, live := f s.live, help := m.help, log := m.log }
  | .error e => .error e

/-- Run legal calls of kind `P`; `none` if one of them is not of that kind or does not
return. -/
def script (P : Session T B → Call T B → Prop) [∀ s c, Decidable (P s c)] (cfg : Config)
    (cs : List (Call T B)) (s : Running T B R) : Option (Running T B R) :=
  cs.foldlM (Lib.attempt (fun s c => s.Legal c ∧ P s.toSession c) (call cfg)) s

end Running

end Cxlalloc
