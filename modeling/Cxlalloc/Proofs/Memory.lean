/-
What each access means for a postcondition.

One rule per access of `Act`, all true by computation, and one per small program
(`help`, `Stack.push`, ...) that the operations of the heap are built from.  With them
`simp` runs a straight-line piece of an operation and leaves its postcondition at the
memory it ends in.
-/
import Cxlalloc.Heap

namespace Cxlalloc

open Function
open Lib.Prog

variable {T B R α : Type} [Bracket B] [DecidableEq T] [DecidableEq B]
variable {m : Mem T B R} {E : Panic → Prop} {i : Index B} {s : StackId T B}

/-! ### Loads and stores -/

variable {Q : Unit → Mem T B R → Prop} {o : Obj B α} {t : T}

section Accesses

@[simp] theorem wp_loadNext {Q : Option (Index B) → Mem T B R → Prop} :
    wp Mem.handle (lift (.loadNext i)) Q E m ↔ Q (m.next i) m := Iff.rfl

@[simp] theorem wp_storeNext {v : Option (Index B)} :
    wp Mem.handle (lift (.storeNext i v)) Q E m ↔
      Q () { m with next := update m.next i v } := Iff.rfl

@[simp] theorem wp_loadOwner {Q : Option T → Mem T B R → Prop} :
    wp Mem.handle (lift (.loadOwner i)) Q E m ↔ Q (m.owner i) m := Iff.rfl

@[simp] theorem wp_storeOwner {v : Option T} :
    wp Mem.handle (lift (.storeOwner i v)) Q E m ↔
      Q () { m with
        owner := update m.owner i v
        lastOwner := update m.lastOwner i (v.or (m.lastOwner i)) } := Iff.rfl

@[simp] theorem wp_loadClass {Q : B → Mem T B R → Prop} :
    wp Mem.handle (lift (.loadClass i)) Q E m ↔ Q (m.sizeClass i) m := Iff.rfl

@[simp] theorem wp_storeClass {c : B} :
    wp Mem.handle (lift (.storeClass i c)) Q E m ↔
      Q () { m with sizeClass := update m.sizeClass i c } := Iff.rfl

@[simp] theorem wp_loadBits {Q : BitSet (Bracket.rows B) → Mem T B R → Prop} :
    wp Mem.handle (lift (.loadBits i)) Q E m ↔ Q (m.bits i) m := Iff.rfl

@[simp] theorem wp_storeBits {b : BitSet (Bracket.rows B)} :
    wp Mem.handle (lift (.storeBits i b)) Q E m ↔
      Q () { m with bits := update m.bits i b } := Iff.rfl

@[simp] theorem wp_flushCxl : wp Mem.handle (lift (.flushCxl i)) Q E m ↔ Q () m := Iff.rfl

@[simp] theorem wp_loadHead {Q : Option (Index B) → Mem T B R → Prop} :
    wp Mem.handle (lift (.loadHead s)) Q E m ↔ Q (m.head s) m := Iff.rfl

@[simp] theorem wp_storeHead {v : Option (Index B)} :
    wp Mem.handle (lift (.storeHead s v)) Q E m ↔
      Q () { m with head := update m.head s v } := Iff.rfl

@[simp] theorem wp_loadLen {Q : ℕ → Mem T B R → Prop} :
    wp Mem.handle (lift (.loadLen s)) Q E m ↔ Q (m.len s) m := Iff.rfl

@[simp] theorem wp_storeLen {n : ℕ} :
    wp Mem.handle (lift (.storeLen s n)) Q E m ↔
      Q () { m with len := update m.len s n } := Iff.rfl

@[simp] theorem wp_loadWord {Q : Word T α → Mem T B R → Prop} :
    wp Mem.handle (lift (.loadWord o)) Q E m ↔ Q (m.word o) m := Iff.rfl

@[simp] theorem wp_storeWord {w : Word T α} :
    wp Mem.handle (lift (.storeWord o w)) Q E m ↔ Q () { m with toHeap := m.setWord o w } :=
  Iff.rfl

theorem wp_casWord {old new : Word T α} {Q : Option (Word T α) → Mem T B R → Prop}
    (hw : m.word o = old) :
    wp Mem.handle (lift (.casWord o old new)) Q E m ↔
      Q none { m with toHeap := m.setWord o new } := by
  rw [wp_lift]
  simp only [Mem.handle, hw, decide_true, if_true]

@[simp] theorem wp_loadHelp {a b : T} {Q : Version → Mem T B R → Prop} :
    wp Mem.handle (lift (.loadHelp a b)) Q E m ↔ Q (m.help a b) m := Iff.rfl

@[simp] theorem wp_storeHelp {a b : T} {v : Version} :
    wp Mem.handle (lift (.storeHelp a b v)) Q E m ↔
      Q () { m with help := update m.help a (update (m.help a) b v) } := Iff.rfl

@[simp] theorem wp_storeLog {r : Option R} :
    wp Mem.handle (lift (.storeLog t r)) Q E m ↔
      Q () { m with log := update m.log t r } := Iff.rfl

@[simp] theorem wp_check {p : Heap T B → Bool} {e : Panic} :
    wp Mem.handle (lift (.check p e)) Q E m ↔ if p m.toHeap then Q () m else E e := by
  rw [wp_lift]
  simp only [Mem.handle]
  by_cases h : p m.toHeap = true
  · simp only [h, if_true]
  · simp only [h, Bool.false_eq_true, if_false]

@[simp] theorem wp_scanHelp {p : (T → T → Version) → Bool} {Q : Bool → Mem T B R → Prop} :
    wp Mem.handle (lift (.scanHelp p)) Q E m ↔ Q (p m.help) m := Iff.rfl

@[simp] theorem wp_record {e : Event B} :
    wp Mem.handle (lift (.record t e)) Q E m ↔ Q () m := Iff.rfl

@[simp] theorem wp_panic {e : Panic} {Q : α → Mem T B R → Prop} :
    wp Mem.handle (panic e) Q E m ↔ E e := Iff.rfl

@[simp] theorem wp_ofExcept_ok {a : α} {Q : α → Mem T B R → Prop} :
    wp Mem.handle (ofExcept (.ok a)) Q E m ↔ Q a m := Iff.rfl

@[simp] theorem wp_ofExcept_error {e : Panic} {Q : α → Mem T B R → Prop} :
    wp Mem.handle (ofExcept (.error e)) Q E m ↔ E e := Iff.rfl

@[simp] theorem wp_unwrap_some {a : α} {Q : α → Mem T B R → Prop} :
    wp Mem.handle (unwrap (some a)) Q E m ↔ Q a m := Iff.rfl

@[simp] theorem wp_unwrap_none {Q : α → Mem T B R → Prop} :
    wp Mem.handle (unwrap none) Q E m ↔ E .unwrapNone := Iff.rfl

theorem wp_checkedSub {a b : ℕ} {Q : ℕ → Mem T B R → Prop} (h : b ≤ a) :
    wp Mem.handle (checkedSub a b) Q E m ↔ Q (a - b) m := by
  rw [checkedSub, if_pos h]
  exact Iff.rfl

end Accesses

/-! ### Detectable words -/

namespace Mem

/-- The memory after `Detectable::help`. -/
def helped (m : Mem T B R) (t : T) (w : Word T α) : Mem T B R :=
  match w.id with
  | none => m
  | some id =>
    { m with help := update m.help t (update (m.help t) id w.version) }

omit [DecidableEq B] in
@[simp] theorem helped_toHeap (t : T) (w : Word T α) : (m.helped t w).toHeap = m.toHeap := by
  unfold helped
  split <;> rfl

omit [DecidableEq B] in
@[simp] theorem helped_log (t : T) (w : Word T α) : (m.helped t w).log = m.log := by
  unfold helped
  split <;> rfl

/-- The memory in which `update` calls its closure: the thread has announced its next
version and helped the word it found. -/
def announced (m : Mem T B R) (t : T) (w : Word T α) : Mem T B R :=
  Mem.helped
    { m with
      help := update m.help t
        (update (m.help t) t (Version.next (m.help t t))) } t w

omit [DecidableEq B] in
@[simp] theorem announced_toHeap (t : T) (w : Word T α) : (m.announced t w).toHeap = m.toHeap := by
  rw [announced, helped_toHeap]

omit [DecidableEq B] in
@[simp] theorem announced_log (t : T) (w : Word T α) : (m.announced t w).log = m.log := by
  rw [announced, helped_log]

end Mem

@[simp] theorem wp_help {w : Word T α} :
    wp Mem.handle (Detectable.help t w) Q E m ↔ Q () (m.helped t w) := by
  unfold Detectable.help Mem.helped
  cases w.id with
  | none => exact Iff.rfl
  | some id => exact Iff.rfl

@[simp] theorem wp_load {Q : α → Mem T B R → Prop} :
    wp Mem.handle (Detectable.load t o) Q E m ↔
      Q (m.word o).inner (m.helped t (m.word o)) := by
  simp only [Detectable.load, wp_bind, wp_loadWord, wp_help, wp_pure]

@[simp] theorem wp_store {a : α} :
    wp Mem.handle (Detectable.store t o a) Q E m ↔
      Q () { m.helped t (m.word o) with
        toHeap := m.setWord o { id := some t, version := 0, inner := a } } := by
  simp [Detectable.store]

/-- `update` without interference: the closure runs once, on the word as it is, and as
long as it leaves that word alone the compare-exchange succeeds. -/
theorem wp_update [FromState B R] {retry : ℕ} {Q : Option α → Mem T B R → Prop}
    {next : α → Version → Code T B R (Option (α × HeapState B))}
    (h : wp Mem.handle (next (m.word o).inner (Version.next (m.help t t)))
      (fun r m' => m'.word o = m.word o ∧
        match r with
        | none => Q none m'
        | some (new, log) =>
          Q (some (m.word o).inner) { m' with
              toHeap := m'.setWord o
                { id := some t, version := Version.next (m.help t t), inner := new }
              log := update m'.log t (some (FromState.fromState log)) })
      E (m.announced t (m.word o))) :
    wp Mem.handle (Detectable.update retry t o next) Q E m := by
  simp only [Detectable.update, wp_bind, wp_loadHelp, wp_storeHelp, wp_loadWord,
    Detectable.updateLoop, wp_help]
  refine wp_mono h ?_ fun _ he => he
  rintro (_ | ⟨new, log⟩) m' ⟨hw, hq⟩
  · exact hq
  · simp only [wp_bind, wp_storeLog]
    refine (wp_casWord ?_).mpr ?_
    · exact hw
    · exact hq

/-! ### Owners -/

namespace Slab

theorem wp_own {cfg : Config} (ho : cfg.validate = true → m.owner i = none) :
    wp Mem.handle (own cfg t i) Q E m ↔
      Q () { m with
        owner := update m.owner i (some t)
        lastOwner := update m.lastOwner i (some t) } := by
  rw [own]
  cases hv : cfg.validate with
  | false => exact Iff.rfl
  | true => simp [ho hv]

theorem wp_disown {cfg : Config} (ho : cfg.validate = true → m.owner i = some t) :
    wp Mem.handle (disown cfg t i) Q E m ↔
      Q () { m with owner := update m.owner i none } := by
  rw [disown]
  cases hv : cfg.validate with
  | false => simp
  | true => simp [ho hv]

@[simp] theorem wp_steal :
    wp Mem.handle (steal t i) Q E m ↔
      Q () { m with
        owner := update m.owner i (some t)
        lastOwner := update m.lastOwner i (some t) } := Iff.rfl

end Slab

/-! ### Stacks -/

namespace Stack

@[simp] theorem wp_peek {Q : Option (Index B) → Mem T B R → Prop} :
    wp Mem.handle (peek s) Q E m ↔ Q (m.head s) m := Iff.rfl

@[simp] theorem wp_set {head : Option (Index B)} {len : ℕ} :
    wp Mem.handle (set s head len) Q E m ↔
      Q () { m with
        head := update m.head s head
        len := update m.len s len } := by
  simp [set]

@[simp] theorem wp_push :
    wp Mem.handle (push s i) Q E m ↔
      Q () { m with
        next := update m.next i (m.head s)
        head := update m.head s (some i)
        len := update m.len s (m.len s + 1) } := by
  simp [push]

theorem wp_pop {Q : Option (Index B) → Mem T B R → Prop} (hh : m.head s = some i)
    (hl : 0 < m.len s) :
    wp Mem.handle (pop s) Q E m ↔
      Q (some i) { m with
        head := update m.head s (m.next i)
        len := update m.len s (m.len s - 1) } := by
  simp only [pop, wp_bind, wp_loadHead, hh, wp_loadNext, wp_storeHead, wp_loadLen]
  rw [wp_checkedSub hl]
  simp

end Stack

end Cxlalloc
