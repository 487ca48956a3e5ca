/-
The global stack of slabs under contention (`slab/stack.rs`).

Threads push slabs that they hold and pop slabs, each call run access by access among the
others.  Between two such calls a thread links the slabs it holds into chains of its own, and
does whatever else a heap does that writes neither a link nor the head: it loads, stores and
updates the other detectable words, and accesses the rest of the memory.

Next to the memory and to where each thread stands in its updates, `StackMem` notes which
threads hold a slab, what each thread is about, and how old the heads are.
-/
import Cxlalloc.Lib.Chain
import Cxlalloc.Detectables

namespace Cxlalloc

open Lib
open Function

variable {T B R β : Type} [Bracket B]

/-- An access that writes neither a link nor the head of the global stack. -/
def Act.apart : Act T B R β → Bool
  | .storeNext _ _ => false
  | .storeWord .global _ => false
  | .casWord .global _ _ => false
  | _ => true

/-- What a thread is about. -/
inductive Job (T B : Type)
  /-- Neither of the two. -/
  | other
  /-- A pop, and the head it goes on to compare with. -/
  | pop (seen : Option (Word T (Option (Index B))))
  /-- A push, and its slabs. -/
  | push (slabs : List (Index B))

/-- The memory of a heap, and who holds the slabs that are not on the global stack. -/
structure StackMem (T B : Type) [Bracket B] extends Watched T B where
  /-- One entry for every time a thread got the slab and has not pushed it since. -/
  held : Index B → List T
  job : T → Job T B
  /-- How many updates the thread that wrote the head had begun by then; a `store` counts as
  none. -/
  written : ℕ
  /-- The same of the head that the thread goes on to compare with. -/
  read : T → ℕ

/-- A call on the global stack, or between two such calls. -/
inductive StackCall (T B : Type) [Bracket B] : Type 1
  /-- A push of the slabs in `front`, linked one to the next, and of `tail` behind them. -/
  | push (front : List (Index B)) (tail : Index B)
  | pop
  /-- A slab that the thread holds is linked to another. -/
  | link (i : Index B) (next : Option (Index B))
  /-- An access to neither a detectable word nor the help array. -/
  | access {β : Type} (act : Access T B β) (plain : act.plain) (apart : act.apart)
  | word (call : DetectCall T B) (apart : ∀ t, (call.code t).Only fun _ act => act.apart)

namespace StackMem

/-- The head a pop of thread `t` goes on to compare with. -/
def popping (m : StackMem T B) (t : T) : Option (Word T (Option (Index B))) :=
  match m.job t with
  | .pop seen => seen
  | _ => none

variable [DecidableEq T]

/-- Thread `t` has read the head.  A pop of an empty stack returns. -/
def reads (t : T) (w : Word T (Option (Index B))) (m : StackMem T B) : StackMem T B :=
  match m.job t with
  | .pop _ =>
    { m with
      job := update m.job t (.pop (if w.inner.isSome then some w else none))
      read := update m.read t m.written }
  | _ => m

/-- Thread `t` has replaced the head `w`. -/
def swaps (t : T) (w : Word T (Option (Index B))) (m : StackMem T B) : StackMem T B :=
  match m.job t, w.inner with
  | .push slabs, _ =>
    { m with
      held := fun i => if i ∈ slabs then (m.held i).erase t else m.held i
      job := update m.job t .other }
  | .pop _, some i =>
    { m with
      held := update m.held i (t :: m.held i)
      job := update m.job t .other }
  | _, _ => m

/-- What is noted after an access of thread `t`. -/
def note (t : T) (m : StackMem T B) : Access T B β → β → StackMem T B
  | .loadWord .global, w => m.reads t w
  | .casWord .global _ _, some w => m.reads t w
  | .casWord .global old _, none => { m.swaps t old with written := m.begun t }
  | .storeWord .global _, _ => { m with written := 0 }
  | _, _ => m

/-- What each access of thread `t` does. -/
def handle [DecidableEq B] (t : T) (β : Type) (act : Access T B β) (m : StackMem T B) :
    Except Panic (β × StackMem T B) :=
  match Watched.handle t β act m.toWatched with
  | .ok (b, m') => .ok (b, { m with toWatched := m' }.note t act b)
  | .error e => .error e

/-- Threads that push slabs they hold, and pop slabs. -/
def system [DecidableEq B] (cfg : Config) :
    System T (Access T B) (StackMem T B) Panic where
  Call := StackCall T B
  code t call :=
    match call with
    | .push front tail => Global.push cfg t ((front ++ [tail]).head (by simp)) tail
    | .pop => do
      let _ ← Global.pop cfg t
    | .link i next => Prog.lift (.storeNext i next)
    | .access act _ _ => do
      let _ ← Prog.lift act
    | .word call _ => call.code t
  legal t call m :=
    match call with
    | .push front tail => (∀ i ∈ front ++ [tail], m.held i = [t]) ∧ (front ++ [tail]).Nodup ∧
        Seg m.next ((front ++ [tail]).head (by simp)) front (some tail)
    | .link i _ => m.held i = [t]
    | _ => True
  enter t call m :=
    match call with
    | .push front tail =>
      { m with
        toWatched := m.callUpdate t
        job := update m.job t (.push (front ++ [tail])) }
    | .pop => { m with toWatched := m.callUpdate t, job := update m.job t (.pop none) }
    | .word call _ => { m with toWatched := m.toWatched.enter t call, job := update m.job t .other }
    | _ => { m with toWatched := m.callOther t, job := update m.job t .other }
  handle := handle

instance [DecidableEq B] (cfg : Config) (t : T) (call : (system (T := T) (B := B) cfg).Call)
    (m : StackMem T B) : Decidable ((system cfg).legal t call m) :=
  match call with
  | .push front tail => inferInstanceAs (Decidable ((∀ i ∈ front ++ [tail], m.held i = [t]) ∧
      (front ++ [tail]).Nodup ∧ Seg m.next ((front ++ [tail]).head (by simp)) front (some tail)))
  | .pop => .isTrue trivial
  | .link i _ => inferInstanceAs (Decidable (m.held i = [t]))
  | .access _ _ _ => .isTrue trivial
  | .word _ _ => .isTrue trivial

/-- Nothing has happened yet: `slabs` are on the global stack, and `holder` says who holds the
others. -/
def resting (h : Heap T B) (slabs : List (Index B)) (holder : Index B → T) : StackMem T B :=
  { (Watched.zeroed : Watched T B) with
    toHeap := h
    held := fun i => if i ∈ slabs then [] else [holder i]
    job := fun _ => .other
    written := 0
    read := fun _ => 0 }

/-- No thread writes the head after it has begun 2^16 updates since it wrote the head that another
thread's pop goes on to compare with; and whenever a thread reads a word of its own, it is one of
its latest version. -/
def InTime : Guard T (Access T B) (StackMem T B) :=
  fun t β act m => Watched.OwnLatest t β act m.toWatched ∧
    match act with
    | .casWord .global old _ => m.global = old → ∀ u, u ≠ t → ∀ w ∈ m.popping u,
        w.id = some t → m.begun t < m.read u + 2 ^ 16
    | _ => True

instance [DecidableEq B] [Fintype T] (t : T) (β : Type) (act : Access T B β)
    (m : StackMem T B) : Decidable (InTime t β act m) := by
  apply Act.casesOn (motive := fun β act => Decidable (InTime t β act m)) act
  case casWord =>
    intro α o
    apply Obj.casesOn (motive := fun α o => ∀ old new : Word T α, Decidable (InTime t _ _ m)) o
    all_goals intros; unfold InTime; infer_instance
  all_goals intros; unfold InTime; infer_instance

end StackMem

end Cxlalloc
