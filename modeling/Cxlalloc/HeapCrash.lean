/-
A thread of the slab heap that crashes, among threads that go on.

The others are a pool: they make calls, and run them access by access.  The thread that
crashes stands apart from them.  It runs a program of its own on their memory, may stop
after any access, and what it stored stays; then it runs another one, to recover.
-/
import Cxlalloc.Crash
import Cxlalloc.HeapSteps

namespace Cxlalloc

open Lib
open Lib.Prog
open Relation

/-- The other threads with the memory, and how far the one that crashes has come. -/
structure Lone (T B : Type) [Bracket B] where
  pool : Pool T (HeapAct T B) (HeapMem T B)
  /-- Whether a compare-exchange took effect after the last record; `none` before the first
  record. -/
  cas : Option Bool

namespace Lone

variable {T B : Type} [Bracket B] [DecidableEq T] [DecidableEq B]

omit [DecidableEq T] [DecidableEq B] in
/-- `cas` after an access. -/
def swapped (cas : Option Bool) {β : Type} : Access T B β → β → Option Bool
  | .storeLog _ _, _ => some false
  | .casWord _ _ _, none => cas.map fun _ => true
  | _, _ => cas

/-- What each access of thread `t` does. -/
def access (cfg : Config) (t : T) (β : Type) (act : Access T B β) (x : Lone T B) :
    Except (Option Panic) (β × Lone T B) :=
  match HeapMem.handle cfg t β (.heap act) x.pool.mem with
  | .ok (b, m) => .ok (b, { pool := { x.pool with mem := m }, cas := swapped x.cas act b })
  | .error e => .error (some e)

/-- One that brings back a head of the global stack is not looked at, as in the pool. -/
def handle [Fintype T] (cfg : Config) (t : T) (β : Type) (act : Access T B β)
    (x : Lone T B) : Except (Option Panic) (β × Lone T B) :=
  if HeapMem.Fresh t β (.heap act) x.pool.mem then access cfg t β act x else .error none

/-- What the other threads do between two accesses: some of the runs they can make. -/
structure Company (T B : Type) [Bracket B] [DecidableEq T] [DecidableEq B] (cfg : Config) (t : T)
    where
  acts : Lone T B → Lone T B → Prop
  refl : ∀ x, acts x x
  trans : ∀ x y z, acts x y → acts y z → acts x z
  runs : ∀ x y, acts x y → y.cas = x.cas ∧
    ReflTransGen (Pool.Without (HeapMem.system cfg) HeapMem.Fresh t) x.pool y.pool

namespace Company

variable {cfg : Config} {t : T}

/-- They do nothing. -/
def idle (cfg : Config) (t : T) : Company T B cfg t where
  acts := Eq
  refl _ := rfl
  trans _ _ _ h₁ h₂ := h₁.trans h₂
  runs _ _ h := h ▸ ⟨rfl, .refl⟩

variable [Fintype T]

/-- `Detectable::detect` answers whether the compare-exchange on `bump` took effect. -/
def Detects (e : Company T B cfg t) (version : Version) (x : Lone T B) : Prop :=
  wpc (handle cfg t) e.acts (Detectable.detect t .bump version)
    (fun took _ => x.cas = some took) (fun _ => True) (fun _ => False) x

/-- The recovery after a crash was cut off as well, and `detect` was exact when it began. -/
def Recrashes (e : Company T B cfg t) (x y : Lone T B) : Prop :=
  (∀ s v, x.pool.mem.log t = some (.bumpToUnsized s v) → e.Detects v x) ∧
    Stops (handle cfg t) e.acts (Heap.recover cfg t) x y

end Company

end Lone

end Cxlalloc
