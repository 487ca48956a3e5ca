/-
Memory statistics (`stat.rs`), with the `stat-memory` feature on.

Every thread has a `MemoryRecorder`: a counter for each kind of memory and, where it
matters, each size class.  `Heap` records an event at each transition of a slab, and the
recorder turns it into additions to its counters.  A counter is sloppy: it keeps what it
was given until the amount reaches a threshold, then prints it and starts from zero.
-/
import Cxlalloc.Session
import Mathlib.Algebra.BigOperators.Group.Finset.Basic
import Mathlib.Algebra.Order.Ring.Int

namespace Cxlalloc

/-! ### `Sloppy` -/

/-- `Sloppy`: the amount that was not printed yet. -/
structure Sloppy where
  residue : ℤ
  deriving DecidableEq

/-- `Sloppy::apply`: what to print, if anything, and what is kept. -/
def Sloppy.apply (threshold : ℤ) (s : Sloppy) (delta : ℤ) : Option ℤ × Sloppy :=
  let next := s.residue + delta
  if |next| < threshold then (none, ⟨next⟩) else (some next, ⟨0⟩)

/-! ### `MemoryRecorder` -/

/-- The fields of a `MemoryRecorder`. -/
inductive Gauge (B : Type)
  | data
  | slabLocal
  | slabRemote
  | application (c : B)
  | globalUnsized
  | localUnsized
  | localSized (c : B)
  | detached (c : B)
  | disowned (c : B)
  deriving DecidableEq

/-- What a list of amounts comes to for one counter. -/
def Gauge.sum {B : Type} [DecidableEq B] (g : Gauge B) (amounts : List (Gauge B × ℤ)) : ℤ :=
  (amounts.map fun u => if u.1 = g then u.2 else 0).sum

/-- `MemoryRecorder`. -/
abbrev MemoryRecorder (B : Type) : Type := Gauge B → Sloppy

/-- `MemoryRecorder::default`. -/
def MemoryRecorder.zeroed {B : Type} : MemoryRecorder B := fun _ => ⟨0⟩

section

variable {B : Type} [Bracket B]

/-- `mem::size_of::<slab::Remote>()`. -/
def sizeOfRemote : ℕ := 2

/-- The additions `MemoryRecorder::record` makes for an event, in its order; `none` where
the `unwrap` of a class fails. -/
def Event.updates (cfg : Config) : Event B → Option (List (Gauge B × ℤ))
  | .allocate size => (Bracket.new size).map fun c => [(.application c, size)]
  | .bump =>
    let batch : ℤ := cfg.batchBump
    some [(.localUnsized, Bracket.sizeSlab B * batch), (.data, Bracket.sizeSlab B * batch),
      (.slabLocal, sizeOfLocal B * batch), (.slabRemote, sizeOfRemote * batch)]
  | .globalToUnsized =>
    some [(.globalUnsized, -Bracket.sizeSlab B), (.localUnsized, Bracket.sizeSlab B)]
  | .unsizedToSized c =>
    some [(.localUnsized, -Bracket.sizeSlab B), (.localSized c, Bracket.sizeSlab B)]
  | .free size => (Bracket.new size).map fun c => [(.application c, -size)]
  | .sizedToUnsized c =>
    some [(.localSized c, -Bracket.sizeSlab B), (.localUnsized, Bracket.sizeSlab B)]
  | .unsizedToGlobal =>
    let batch : ℤ := cfg.batchGlobal
    some [(.localUnsized, -Bracket.sizeSlab B * batch),
      (.globalUnsized, Bracket.sizeSlab B * batch)]
  | .detach c =>
    some [(.localSized c, -Bracket.sizeSlab B), (.detached c, Bracket.sizeSlab B)]
  | .disown c =>
    some [(.detached c, -Bracket.sizeSlab B), (.disowned c, Bracket.sizeSlab B)]
  | .attach c =>
    some [(.detached c, -Bracket.sizeSlab B), (.localSized c, Bracket.sizeSlab B)]
  | .claim c =>
    some [(.disowned c, -Bracket.sizeSlab B), (.localUnsized, Bracket.sizeSlab B)]

variable [DecidableEq B]

/-- One addition after the other; what is printed, and the counters. -/
def MemoryRecorder.applyAll (threshold : ℤ) :
    List (Gauge B × ℤ) → MemoryRecorder B → List (Gauge B × ℤ) × MemoryRecorder B
  | [], r => ([], r)
  | (g, delta) :: us, r =>
    let (value, kept) := (r g).apply threshold delta
    let (printed, r) := applyAll threshold us (Function.update r g kept)
    (value.toList.map (Prod.mk g) ++ printed, r)

/-- `MemoryRecorder::record::<{ 1 << 12 }, _>`. -/
def MemoryRecorder.record (cfg : Config) (r : MemoryRecorder B) (e : Event B) :
    Option (List (Gauge B × ℤ) × MemoryRecorder B) :=
  (e.updates cfg).map fun us => applyAll (2 ^ 12) us r

end

/-! ### A heap with statistics -/

section

variable {T B R : Type} [Bracket B] [DecidableEq T] [DecidableEq B]

/-- What the recorders of a heap hold and have printed. -/
structure Stat (T B : Type) where
  /-- `Recorder::memory`. -/
  memory : T → MemoryRecorder B
  /-- The lines written so far. -/
  printed : List (Gauge B × ℤ)

namespace Stat

/-- Before the first event. -/
def zeroed : Stat T B where
  memory _ := MemoryRecorder.zeroed
  printed := []

/-- `Recorder::record`. -/
def record (cfg : Config) (t : T) (e : Event B) (st : Stat T B) : Option (Stat T B) :=
  ((st.memory t).record cfg e).map fun (printed, r) =>
    { memory := Function.update st.memory t r, printed := st.printed ++ printed }

/-- The total of a counter: what all threads have printed, and what they still keep. -/
def total [Fintype T] (st : Stat T B) (g : Gauge B) : ℤ :=
  g.sum st.printed + ∑ t, (st.memory t g).residue

/-- What each access does to the memory of a heap and to its statistics. -/
def handle (cfg : Config) (β : Type) (act : Act T B R β) :
    Mem T B R × Stat T B → Except Panic (β × (Mem T B R × Stat T B))
  | (m, st) =>
    match Mem.handle β act m with
    | .error e => .error e
    | .ok (b, m') =>
      match act with
      | .record t e =>
        match st.record cfg t e with
        | some st' => .ok (b, (m', st'))
        | none => .error .unwrapNone
      | _ => .ok (b, (m', st))

end Stat

/-- A session that keeps statistics. -/
structure StatSession (T B : Type) [Bracket B] extends Session T B where
  stat : Stat T B

namespace StatSession

variable [FromState B R]

/-- Before the first call. -/
def zeroed : StatSession T B :=
  { toSession := Session.zeroed, stat := Stat.zeroed }

/-- Run one call. -/
def call (cfg : Config) (help : T → T → Version) (log : T → Option R) (s : StatSession T B) :
    Call T B → Except Panic (StatSession T B)
  | .allocate t c =>
    match (Heap.allocateBlock cfg t c : Code T B R _).exec (Stat.handle cfg)
        ({ s.heap with help := help, log := log }, s.stat) with
    | .ok (some offset, (m, st)) =>
      .ok { heap := m.toHeap, live := insert offset s.live, stat := st }
    | .ok (none, (m, st)) => .ok { heap := m.toHeap, live := s.live, stat := st }
    | .error e => .error e
  | .free t offset =>
    match (Heap.free cfg t offset : Code T B R _).exec (Stat.handle cfg)
        ({ s.heap with help := help, log := log }, s.stat) with
    | .ok ((), (m, st)) => .ok { heap := m.toHeap, live := s.live.erase offset, stat := st }
    | .error e => .error e

/-- One completed call of a kind `P`. -/
def StepWhere (R : Type) [FromState B R] (P : Session T B → Call T B → Prop) (cfg : Config)
    (s s' : StatSession T B) : Prop :=
  ∃ (c : Call T B) (help : T → T → Version) (log : T → Option R),
    s.Legal c ∧ P s.toSession c ∧ s.call cfg help log c = .ok s'

/-- Run a script of legal calls of kind `P`, each from an empty help array and without
records. -/
def script (R : Type) [FromState B R] (P : Session T B → Call T B → Prop)
    [∀ s c, Decidable (P s c)] (cfg : Config)
    (cs : List (Call T B)) (s : StatSession T B) : Option (StatSession T B) :=
  cs.foldlM (Lib.attempt (fun s c => s.Legal c ∧ P s.toSession c)
    fun s c => s.call (R := R) cfg (fun _ _ => 0) (fun _ => none) c) s

end StatSession

end

end Cxlalloc
