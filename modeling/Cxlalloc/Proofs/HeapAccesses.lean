/-
The slab heap under every interleaving: what each access needs of a thread's view.

`View.pre` says it for every access of the heap: which slabs it may be made to, what it answers,
and how the view changes.  Loads of words that others write may answer anything.  A
compare-exchange that succeeds gives slabs to the thread or takes them from it.

`does_pre` is the other half: in every state in which the view is right, such an access keeps the
invariant, does nothing to the others' slabs, and leaves the view right.
-/
import Cxlalloc.Proofs.HeapViews

namespace Cxlalloc

open Lib
open Lib.Protocol
open Cxlalloc.Bracket
open Function

/-- How a thread may stop: it has lost too many races, or there is no slab left.  Nothing is said
of builds with checks, or of batches that are too large. -/
def Config.Stops (cfg : Config) (e : Panic) : Prop :=
  cfg.validate = false → 1 ≤ cfg.batchGlobal → cfg.batchGlobal ≤ cfg.cacheLocal + 1 →
    e = .diverge ∨ e = .indexOverflow

namespace View

variable {T B : Type} [Bracket B] [DecidableEq B]

/-- The slabs in `S` have become the thread's own. -/
structure Gains (S : Set (Index B)) (v v' : View T B) : Prop where
  head : v'.head = v.head
  len : v'.len = v.len
  away : ∀ i ∈ S, v.place i = .away
  gained : ∀ i ∈ S, v'.place i = .unsized
  kept : ∀ i, i ∉ S → v'.hold i = v.hold i
  hand : v'.hand = v.hand

/-- The thread puts a batch of its slabs on the global stack. -/
structure Pushes (n : ℕ) (v : View T B) (batch : List (Index B)) (old new : Option (Index B)) :
    Prop where
  ne_nil : batch ≠ []
  length : batch.length ≤ n
  seg : Seg v.next new batch old
  own : ∀ i ∈ batch, v.place i = .unsized

/-- The thread takes the slab off the global stack whose link it has read. -/
structure Pops (v : View T B) (i : Index B) (old new : Word T (Option (Index B))) : Prop where
  seen : v.seen = some old
  inner : old.inner = some i
  link : v.link = some (i, new.inner)

/-- What holds of a slab besides what the view says. -/
structure Known (t : T) (v : View T B) (i : Index B) : Prop where
  owner : v.place i = .sized → v.owner i = some t
  valid : v.place i = .sized → (v.bits i).validate = true
  elems : v.place i = .sized → ∀ b ∈ (v.bits i).elems, b < count (v.sizeClass i)
  hand : ∀ b c, v.hand = some ⟨i, b, c⟩ → v.place i ≠ .unsized ∧
    (v.place i = .sized → v.sizeClass i = c ∧ b < count c ∧ b ∉ (v.bits i).elems)

/-- A head of the global stack. -/
def Head (v : View T B) (w : Word T (Option (Index B))) : Prop :=
  ∀ i, w.inner = some i → v.place i = .away

/-- A counter of a slab.  As long as the thread has a block of the slab, it is not zero. -/
def Counter (v : View T B) (i : Index B) (w : Word T Remote) : Prop :=
  (∃ b c, v.hand = some ⟨i, b, c⟩) → 0 < w.inner.free

/-- The thread is done with the block in its hands. -/
def letGo (v : View T B) (i : Index B) : View T B :=
  { v with
    hand := none
    place := update v.place i
      (if v.place i = .sized ∧ (v.bits i).elems = ∅ then .away else v.place i) }

/-- What each access of thread `t` needs of its view, and what may come of it. -/
def pre (cfg : Config) (t : T) (β : Type) :
    Access T B β → (β → View T B → Prop) → View T B → Prop
  | .loadNext i, Q, v =>
    (v.place i ≠ .away → Q (v.next i) v) ∧
      (v.place i = .away → ∀ x, Q x { v with link := some (i, x) })
  | .storeNext i x, Q, v => v.place i ≠ .away ∧ Q () { v with next := update v.next i x }
  | .loadOwner i, Q, v =>
    (v.place i ≠ .away → v.Known t i → Q (v.owner i) v) ∧
      (v.place i = .away → ∀ o, ((∃ b c, v.hand = some ⟨i, b, c⟩) → o ≠ some t) → Q o v)
  | .storeOwner i o, Q, v =>
    (v.place i = .unsized ∧ Q () { v with owner := update v.owner i o }) ∨
      (v.place i = .sized ∧ o = none ∧ (v.bits i).elems = ∅ ∧
        Q () { v with place := update v.place i .away })
  | .loadClass i, Q, v =>
    (v.place i ≠ .away → v.Known t i → Q (v.sizeClass i) v) ∧ (v.place i = .away → ∀ c, Q c v)
  | .storeClass i c, Q, v =>
    v.place i = .unsized ∧ Q () { v with sizeClass := update v.sizeClass i c }
  | .loadBits i, Q, v => v.place i ≠ .away ∧ (v.Known t i → Q (v.bits i) v)
  | .storeBits i s, Q, v =>
    (v.place i = .unsized ∧ Q () { v with bits := update v.bits i s }) ∨
      (v.place i = .sized ∧ s.validate = true ∧
        ((∃ b ∈ (v.bits i).elems, v.hand = none ∧ s.elems = (v.bits i).elems.erase b ∧
            Q () { v with
              bits := update v.bits i s
              hand := some ⟨i, b, v.sizeClass i⟩ }) ∨
          ∃ b c, v.hand = some ⟨i, b, c⟩ ∧ s.elems = insert b (v.bits i).elems ∧
            Q () { v with bits := update v.bits i s, hand := none }))
  | .flushCxl _, Q, v => Q () v
  | .loadHead s, Q, v => ∃ k, s = .of t k ∧ Q (v.head k) v
  | .storeHead (.sized u c) x, Q, v =>
    u = t ∧ Q () { v with head := update v.head (some c) x }
  | .storeHead (.unsized u) none, Q, v =>
    u = t ∧ Q () { v with head := update v.head none none }
  | .storeHead (.unsized u) (some i), Q, v =>
    u = t ∧
      ((v.place i = .unsized ∧ Q () { v with head := update v.head none (some i) }) ∨
        (v.place i = .sized ∧ (v.bits i).elems = Finset.range (count (v.sizeClass i)) ∧
          Q () { v with
            head := update v.head none (some i)
            place := update v.place i .unsized }))
  | .loadLen s, Q, v => ∃ k, s = .of t k ∧ Q (v.len k) v
  | .storeLen s n, Q, v => ∃ k, s = .of t k ∧ Q () { v with len := update v.len k n }
  | .loadWord .global, Q, v => ∀ w, v.Head w → Q w { v with seen := some w, link := none }
  | .loadWord .bump, Q, v => ∀ w, Q w v
  | .loadWord (.remote i), Q, v => ∀ w, v.Counter i w → Q w v
  | .storeWord .global _, _, _ => False
  | .storeWord .bump _, _, _ => False
  | .storeWord (.remote i) w, Q, v =>
    v.place i = .unsized ∧ isZero (v.sizeClass i) = false ∧ v.owner i = some t ∧
      (v.bits i).validate = true ∧
      (v.bits i).elems = Finset.range (count (v.sizeClass i)) ∧
      w.inner.free = count (v.sizeClass i) ∧ Q () { v with place := update v.place i .sized }
  | .casWord .global old new, Q, v =>
    (∀ w, v.Head w → Q (some w) { v with seen := some w, link := none }) ∧
      ((∃ batch, v.Pushes cfg.batchGlobal batch old.inner new.inner ∧
          Q none { v with
            place := fun i => if i ∈ batch then .away else v.place i
            seen := none
            link := none }) ∨
        ∃ i, v.Pops i old new ∧
          ∀ v', Gains {i} { v with seen := none, link := none } v' → Q none v')
  | .casWord .bump old new, Q, v =>
    (∀ w, Q (some w) v) ∧
      (old.inner.getD .min).value ≤ (new.inner.getD .min).value ∧
      (new.inner.getD .min).value < 2 ^ 32 ∧
      ∀ v', Gains {i | (old.inner.getD .min).value ≤ i.value ∧
        i.value < (new.inner.getD .min).value} v v' → Q none v'
  | .casWord (.remote i) old new, Q, v =>
    (∀ w, v.Counter i w → Q (some w) v) ∧ v.place i = .away ∧ (∃ b c, v.hand = some ⟨i, b, c⟩) ∧
      new.inner.free + 1 = old.inner.free ∧
      (new.inner.free ≠ 0 → Q none { v with hand := none }) ∧
      (new.inner.free = 0 → ∀ v', Gains {i} { v with hand := none } v' → Q none v')
  | .loadHelp _ _, Q, v => ∀ n, Q n v
  | .storeHelp u _ _, Q, v => u = t ∧ Q () v
  | .loadLog _, Q, v => ∀ r, Q r v
  | .storeLog u _, Q, v => u = t ∧ Q () v
  | .check _ e, Q, v => cfg.Stops e ∧ Q () v
  | .scanHelp _, Q, v => ∀ r, Q r v
  | .record _ _, Q, v => Q () v
  | .panic e, _, _ => cfg.Stops e

/-- The same with the return of a block to the application. -/
def preAct (cfg : Config) (t : T) : Local (HeapAct T B) (View T B)
  | β, .heap act, Q, v => v.pre cfg t β act Q
  | _, .hand offset c, Q, v => ∃ (i : Index B) (b : Bit), v.hand = some ⟨i, b.toNat, c⟩ ∧
      offset = .fromBlock c i b ∧ Q () (v.letGo i)

end View

namespace HeapMem

variable {T B : Type} [Bracket B] [DecidableEq T] {m m' : HeapMem T B} {t u : T} {i : Index B}
  {v v' : View T B}

/-! ### Accesses to the thread's own slabs -/

/-- What the memory has besides slabs and stacks. -/
structure Else (m m' : HeapMem T B) : Prop where
  len : m'.len = m.len
  global : m'.global = m.global
  bump : m'.bump = m.bump
  live : m'.live = m.live
  seen : m'.seen = m.seen

/-- What a step of the thread leaves behind. -/
structure After (t : T) (m m' : HeapMem T B) (v' : View T B) : Prop where
  sound : m'.Sound
  acts : Acts t m m'
  own : Own t v' m'

theorem After.same (hm : m.Sound) (h : Own t v m) (hslab : ∀ i, m'.slab i = m.slab i)
    (hhead : m'.head = m.head) (helse : Else m m') : After t m m' v where
  sound := hm.same hslab helse.global helse.bump helse.live
  acts := .same hslab hhead (fun _ _ => by rw [helse.len]) (fun _ _ => by rw [helse.seen])
    helse.global
  own := h.same hslab hhead helse.len helse.seen helse.global

/-- A step that edits one slab. -/
theorem After.edit [LawfulBracket B] (hm : m.Sound) (h : Own t v m)
    (hedit : (m.slab i).Edit t (m'.slab i)) (hi : Sees t (v'.hold i) (m'.slab i))
    (hother : ∀ j, j ≠ i → m'.slab j = m.slab j ∧ v'.hold j = v.hold j) (helse : Else m m')
    (hhead : (∀ s, s.thread ≠ t → m'.head s = m.head s) ∧ ∀ k, m'.head (.of t k) = v'.head k)
    (hhand : (∀ j b, m'.block j b = .thread t ↔ ∃ c, v'.hand = some ⟨j, b, c⟩) ∧
      ∀ x, v'.hand = some x → m'.sizeClass x.index = x.sizeClass)
    (hread : v'.len = v.len ∧ v'.seen = v.seen ∧ v'.link = v.link) : After t m m' v' where
  sound := hm.edit hedit (fun j hj => (hother j hj).1) helse.global helse.bump helse.live
  acts := .edit hedit (fun j hj => (hother j hj).1) helse.global hhead.1 helse.len helse.seen
  own := h.edit hm hedit (fun j hj => (hother j hj).1) helse.global helse.seen hhead.2
    ⟨helse.len, hread.1⟩ hi (fun j hj => (hother j hj).2) hhand.1 hhand.2 hread.2

/-- A write to the record of a slab that is the thread's own. -/
theorem After.write [LawfulBracket B] (hm : m.Sound) (h : Own t v m) (hi : v.place i = .unsized)
    (hslab : m'.slab i = { m.slab i with
      next := m'.next i, owner := m'.owner i, sizeClass := m'.sizeClass i, bits := m'.bits i })
    (hplace : v'.place i = v.place i) (hagrees : (v'.hold i).Agrees (m'.slab i))
    (hother : ∀ j, j ≠ i → m'.slab j = m.slab j ∧ v'.hold j = v.hold j) (helse : Else m m')
    (hhead : m'.head = m.head ∧ v'.head = v.head) (hhand : v'.hand = v.hand)
    (hread : v'.len = v.len ∧ v'.seen = v.seen ∧ v'.link = v.link) : After t m m' v' := by
  have hheads : (∀ s, s.thread ≠ t → m'.head s = m.head s) ∧ ∀ k, m'.head (.of t k) = v'.head k := by
    rw [hhead.1, hhead.2]
    exact ⟨fun _ _ => rfl, h.head⟩
  have hp : (m.slab i).place = .unsized t := h.unsized.mp hi
  have hedit : (m.slab i).Edit t (m'.slab i) := by
    rw [hslab]
    exact .write hp _ _ _ _
  refine .edit hm h hedit (.of_unsized (hplace.trans hi) (by rw [hslab]; exact hp) hagrees) hother
    helse hheads (h.hand_edit hm hedit (fun j hj => (hother j hj).1) hhand fun b => ?_) hread
  rw [show m'.block i = m.block i from congrArg SlabState.block hslab]

theorem after_storeNext [LawfulBracket B] (hm : m.Sound) (h : Own t v m) (hi : v.place i ≠ .away)
    {x : Option (Index B)} : After t m { m with next := update m.next i x }
      { v with next := update v.next i x } := by
  have hother : ∀ j, j ≠ i → ({ m with next := update m.next i x } : HeapMem T B).slab j =
      m.slab j ∧ ({ v with next := update v.next i x } : View T B).hold j = v.hold j :=
    fun j hj => ⟨by simp [slab, hj], by simp [View.hold, hj]⟩
  have hagrees := h.agrees hi
  have hagrees' : (({ v with next := update v.next i x } : View T B).hold i).Agrees
      (({ m with next := update m.next i x } : HeapMem T B).slab i) :=
    ⟨by simp [slab, View.hold], hagrees.owner, hagrees.sizeClass, hagrees.bits⟩
  cases hp : v.place i with
  | away => exact absurd hp hi
  | unsized =>
    exact .write hm h hp rfl rfl hagrees' hother ⟨rfl, rfl, rfl, rfl, rfl⟩ ⟨rfl, rfl⟩ rfl ⟨rfl, rfl, rfl⟩
  | sized =>
    have hpin := h.sized.mp hp
    have hslab : ({ m with next := update m.next i x } : HeapMem T B).slab i =
        { m.slab i with next := x } := by simp [slab]
    have hedit : (m.slab i).Edit t (({ m with next := update m.next i x } : HeapMem T B).slab i) := by
      rw [hslab]
      exact .link hpin.1 x
    exact .edit hm h hedit (.of_sized hp (by rw [hslab]; exact hpin) hagrees') hother
      ⟨rfl, rfl, rfl, rfl, rfl⟩ ⟨fun _ _ => rfl, h.head⟩
      (h.hand_edit hm hedit (fun j hj => (hother j hj).1) rfl fun _ => Iff.rfl) ⟨rfl, rfl, rfl⟩

theorem after_storeClass [LawfulBracket B] (hm : m.Sound) (h : Own t v m)
    (hi : v.place i = .unsized) {c : B} : After t m { m with sizeClass := update m.sizeClass i c }
      { v with sizeClass := update v.sizeClass i c } := by
  have hagrees := h.agrees (i := i) (by simp [hi])
  refine .write hm h hi rfl rfl ⟨hagrees.next, hagrees.owner, ?_, hagrees.bits⟩ (fun j hj => ?_)
    ⟨rfl, rfl, rfl, rfl, rfl⟩ ⟨rfl, rfl⟩ rfl ⟨rfl, rfl, rfl⟩
  · simp [slab, View.hold]
  · exact ⟨by simp [slab, hj], by simp [View.hold, hj]⟩

variable {last : Index B → Option T}

theorem after_storeOwner [LawfulBracket B] (hm : m.Sound) (h : Own t v m)
    (hi : v.place i = .unsized) {o : Option T} :
    After t m { m with owner := update m.owner i o, lastOwner := last }
      { v with owner := update v.owner i o } := by
  have hagrees := h.agrees (i := i) (by simp [hi])
  refine .write hm h hi rfl rfl ⟨hagrees.next, ?_, hagrees.sizeClass, hagrees.bits⟩ (fun j hj => ?_)
    ⟨rfl, rfl, rfl, rfl, rfl⟩ ⟨rfl, rfl⟩ rfl ⟨rfl, rfl, rfl⟩
  · simp [slab, View.hold]
  · exact ⟨by simp [slab, hj], by simp [View.hold, hj]⟩

variable {s : BitSet (rows B)}

theorem after_fill [LawfulBracket B] (hm : m.Sound) (h : Own t v m) (hi : v.place i = .unsized) :
    After t m { m with bits := update m.bits i s } { v with bits := update v.bits i s } := by
  have hagrees := h.agrees (i := i) (by simp [hi])
  refine .write hm h hi rfl rfl ⟨hagrees.next, hagrees.owner, hagrees.sizeClass, ?_⟩ (fun j hj => ?_)
    ⟨rfl, rfl, rfl, rfl, rfl⟩ ⟨rfl, rfl⟩ rfl ⟨rfl, rfl, rfl⟩
  · simp [slab, View.hold]
  · exact ⟨by simp [slab, hj], by simp [View.hold, hj]⟩

/-- `Local::disown`, of a slab without free blocks. -/
theorem after_disown [LawfulBracket B] (hm : m.Sound) (h : Own t v m) (hi : v.place i = .sized)
    (hbits : (v.bits i).elems = ∅) :
    After t m { m with
        owner := update m.owner i none
        lastOwner := last
        place := update m.place i .disowned } { v with place := update v.place i .away } := by
  have hagrees := h.agrees (i := i) (by simp [hi])
  have hpin := h.sized.mp hi
  have hedit : (m.slab i).Edit t (({ m with
      owner := update m.owner i none
      lastOwner := last
      place := update m.place i .disowned } : HeapMem T B).slab i) := by
    have hempty : (m.slab i).bits.elems = ∅ := by
      rw [hagrees.bits]
      exact hbits
    simpa [slab] using SlabState.Edit.disown hpin.1 hempty
  have hother : ∀ j, j ≠ i → ({ m with
      owner := update m.owner i none
      lastOwner := last
      place := update m.place i .disowned } : HeapMem T B).slab j = m.slab j ∧
      ({ v with place := update v.place i .away } : View T B).hold j = v.hold j :=
    fun j hj => ⟨by simp [slab, hj], by simp [View.hold, hj]⟩
  refine .edit hm h hedit (.of_away (by simp [View.hold]) (by simp [slab])
    (by simp [SlabState.Pinned, slab])) hother ⟨rfl, rfl, rfl, rfl, rfl⟩ ⟨fun _ _ => rfl, h.head⟩
    (h.hand_edit hm hedit (fun j hj => (hother j hj).1) rfl fun _ => Iff.rfl) ⟨rfl, rfl, rfl⟩

/-! ### The bitset of a carved slab -/

/-- What is noted of a bitset that differs in one block. -/
theorem marks_eq (hp : m.place i = .sized t) {f : ℕ → BlockPlace T}
    (hf : ∀ b, (if b ∈ s.elems then .slab else if m.block i b = .slab then .thread t
      else m.block i b) = f b) :
    ({ m with bits := update m.bits i s } : HeapMem T B).marks t i s =
      { m with bits := update m.bits i s, block := update m.block i f } := by
  rw [marks, if_pos hp]
  congr 2
  funext b
  rw [← hf b]
  simp only [BitSet.has_iff]

/-- A block is popped. -/
theorem after_take [LawfulBracket B] (hm : m.Sound) (h : Own t v m) (hi : v.place i = .sized)
    {b : ℕ} (hb : b ∈ (v.bits i).elems) (hhand : v.hand = none)
    (hs : s.validate = true) (helems : s.elems = (v.bits i).elems.erase b) :
    After t m (({ m with bits := update m.bits i s } : HeapMem T B).marks t i s)
      { v with bits := update v.bits i s, hand := some ⟨i, b, v.sizeClass i⟩ } := by
  have hagrees := h.agrees (i := i) (by simp [hi])
  have hpin := h.sized.mp hi
  have hmem := h.mem_bits hm hi
  have hslab : m.block i b = .slab := (hmem b).mp hb
  have hnone := h.not_thread hhand
  rw [marks_eq (f := update (m.block i) b (.thread t)) hpin.1 fun b' => ?_]
  · have hedit : (m.slab i).Edit t (({ m with
        bits := update m.bits i s
        block := update m.block i (update (m.block i) b (.thread t)) } : HeapMem T B).slab i) := by
      have helems' : s.elems = (m.slab i).bits.elems.erase b := by
        rw [hagrees.bits]
        exact helems
      simpa [slab] using SlabState.Edit.take hpin.1 hslab hs helems'
    refine .edit hm h hedit (.of_sized hi ⟨?_, b, .inr ?_⟩ ?_) (fun j hj => ⟨?_, ?_⟩)
      ⟨rfl, rfl, rfl, rfl, rfl⟩ ⟨fun _ _ => rfl, h.head⟩ ⟨fun j b' => ?_, ?_⟩ ⟨rfl, rfl, rfl⟩
    · exact hpin.1
    · simp [slab]
    · exact ⟨hagrees.next, hagrees.owner, hagrees.sizeClass, by simp [slab, View.hold]⟩
    · simp [slab, hj]
    · simp [View.hold, hj]
    · by_cases hj : j = i
      · subst hj
        by_cases hb' : b' = b
        · subst hb'
          simp
        · simp [hb', hnone j b', Ne.symm hb']
      · simp [hj, hnone j b', Ne.symm hj]
    · rintro x hx
      obtain rfl := Option.some.inj hx
      exact hagrees.sizeClass
  · simp only [helems, Finset.mem_erase]
    by_cases hb' : b' = b
    · subst hb'
      simp [hslab]
    · simp only [hb', ne_eq, not_false_eq_true, true_and, update_of_ne, hmem]
      split_ifs with h₁
      · exact h₁.symm
      · rfl

/-- A block is put back. -/
theorem after_put [LawfulBracket B] (hm : m.Sound) (h : Own t v m) (hi : v.place i = .sized)
    {b : ℕ} {c : B} (hhand : v.hand = some ⟨i, b, c⟩)
    (hs : s.validate = true) (helems : s.elems = insert b (v.bits i).elems) :
    After t m (({ m with bits := update m.bits i s } : HeapMem T B).marks t i s)
      { v with bits := update v.bits i s, hand := none } := by
  have hagrees := h.agrees (i := i) (by simp [hi])
  have hpin := h.sized.mp hi
  have hmem := h.mem_bits hm hi
  have hthread := h.thread hhand
  rw [marks_eq (f := update (m.block i) b .slab) hpin.1 fun b' => ?_]
  · have hedit : (m.slab i).Edit t (({ m with
        bits := update m.bits i s
        block := update m.block i (update (m.block i) b .slab) } : HeapMem T B).slab i) := by
      have helems' : s.elems = insert b (m.slab i).bits.elems := by
        rw [hagrees.bits]
        exact helems
      simpa [slab] using SlabState.Edit.put hpin.1 hthread hs helems'
    refine .edit hm h hedit (.of_sized hi ⟨?_, b, .inl ?_⟩ ?_) (fun j hj => ⟨?_, ?_⟩)
      ⟨rfl, rfl, rfl, rfl, rfl⟩ ⟨fun _ _ => rfl, h.head⟩
      ⟨fun j b' => iff_of_false (h.update_ne hhand (by simp) j b') (by simp), fun _ hx => by cases hx⟩
      ⟨rfl, rfl, rfl⟩
    · exact hpin.1
    · simp [slab]
    · exact ⟨hagrees.next, hagrees.owner, hagrees.sizeClass, by simp [slab, View.hold]⟩
    · simp [slab, hj]
    · simp [View.hold, hj]
  · simp only [helems, Finset.mem_insert]
    by_cases hb' : b' = b
    · subst hb'
      simp
    · simp only [hb', false_or, ne_eq, not_false_eq_true, update_of_ne, hmem]
      split_ifs with h₁
      · exact h₁.symm
      · rfl

/-! ### Stacks -/

/-- The head of one of the thread's stacks is written. -/
theorem after_storeHead (hm : m.Sound) (h : Own t v m) [DecidableEq B] (k : Option B)
    (x : Option (Index B)) : After t m { m with head := update m.head (.of t k) x }
      { v with head := update v.head k x } where
  sound := hm.same (fun _ => rfl) rfl rfl rfl
  acts := {
    slab := fun _ => .same
    head := fun s hs => update_of_ne (fun he => hs (by rw [he, StackId.thread_of])) _ _
    len := fun _ _ => rfl
    seen := fun _ _ => rfl
    global := .inl rfl }
  own := {
    head := fun k' => by
      by_cases hk : k' = k
      · subst hk
        simp
      · simp [hk, h.head]
    len := h.len
    slab := h.slab
    hand := h.hand
    sizeClass := h.sizeClass
    seen := h.seen
    link := h.link }

/-- The length of one of the thread's stacks is written. -/
theorem after_storeLen (hm : m.Sound) (h : Own t v m) [DecidableEq B] (k : Option B) (n : ℕ) :
    After t m { m with len := update m.len (.of t k) n } { v with len := update v.len k n } where
  sound := hm.same (fun _ => rfl) rfl rfl rfl
  acts := .same (fun _ => rfl) rfl
    (fun _ hs => update_of_ne (fun he => hs (by rw [he, StackId.thread_of])) _ _) (fun _ _ => rfl) rfl
  own := {
    head := h.head
    len := fun k' => by
      by_cases hk : k' = k
      · subst hk
        simp
      · simp [hk, h.len]
    slab := h.slab
    hand := h.hand
    sizeClass := h.sizeClass
    seen := h.seen
    link := h.link }

/-- A slab with all its blocks goes to the unsized stack. -/
theorem after_retire [LawfulBracket B] [DecidableEq B] (hm : m.Sound) (h : Own t v m)
    (hi : v.place i = .sized) (helems : (v.bits i).elems = Finset.range (count (v.sizeClass i))) :
    After t m { m with
        head := update m.head (.unsized t) (some i)
        place := update m.place i (.unsized t)
        block := update m.block i fun _ => .gone }
      { v with head := update v.head none (some i), place := update v.place i .unsized } := by
  have hagrees := h.agrees (i := i) (by simp [hi])
  have hpin := h.sized.mp hi
  have helems' : (m.slab i).bits.elems = Finset.range (count (m.slab i).sizeClass) := by
    rw [hagrees.bits, hagrees.sizeClass]
    exact helems
  have hedit : (m.slab i).Edit t (({ m with
      head := update m.head (.unsized t) (some i)
      place := update m.place i (.unsized t)
      block := update m.block i fun _ => .gone } : HeapMem T B).slab i) := by
    simpa [slab] using SlabState.Edit.retire hpin.1 helems'
  have hother : ∀ j, j ≠ i → ({ m with
      head := update m.head (.unsized t) (some i)
      place := update m.place i (.unsized t)
      block := update m.block i fun _ => .gone } : HeapMem T B).slab j = m.slab j ∧
      ({ v with
        head := update v.head none (some i)
        place := update v.place i .unsized } : View T B).hold j = v.hold j :=
    fun j hj => ⟨by simp [slab, hj], by simp [View.hold, hj]⟩
  have hhead := after_storeHead hm h none (some i)
  refine .edit hm h hedit (.of_unsized (by simp [View.hold]) (by simp [slab]) ?_) hother
    ⟨rfl, rfl, rfl, rfl, rfl⟩ ⟨hhead.acts.head, hhead.own.head⟩
    (h.hand_edit hm hedit (fun j hj => (hother j hj).1) rfl fun b => ?_) ⟨rfl, rfl, rfl⟩
  · exact ⟨hagrees.next, hagrees.owner, hagrees.sizeClass, hagrees.bits⟩
  · have hb : m.block i b = .slab ∨ m.block i b = .gone := (hm.slab i).full hpin.1 helems' b
    rcases hb with hb | hb <;> simp [hb]

/-- A slab is carved into blocks. -/
theorem after_carve [LawfulBracket B] (hm : m.Sound) (h : Own t v m) (hi : v.place i = .unsized)
    (hc : isZero (v.sizeClass i) = false) (howner : v.owner i = some t)
    (hvalid : (v.bits i).validate = true)
    (helems : (v.bits i).elems = Finset.range (count (v.sizeClass i))) {w : Word T Remote}
    (hw : w.inner.free = count (v.sizeClass i)) :
    After t m { m with
        remote := update m.remote i w
        place := update m.place i (.sized t)
        block := update m.block i fun b => if (m.bits i).has b then .slab else .gone }
      { v with place := update v.place i .sized } := by
  have hagrees := h.agrees (i := i) (by simp [hi])
  have hplace : (m.slab i).place = .unsized t := h.unsized.mp hi
  have hbits : m.bits i = v.bits i := hagrees.bits
  have hclass : m.sizeClass i = v.sizeClass i := hagrees.sizeClass
  have hblock : (fun b => if (m.bits i).has b then BlockPlace.slab else .gone : ℕ → BlockPlace T) =
      fun b => if b < count (m.sizeClass i) then .slab else .gone := by
    funext b
    simp only [BitSet.has_iff, hbits, helems, Finset.mem_range, hclass]
  rw [hblock]
  have hedit : (m.slab i).Edit t (({ m with
      remote := update m.remote i w
      place := update m.place i (.sized t)
      block := update m.block i fun b => if b < count (m.sizeClass i) then .slab else .gone } :
        HeapMem T B).slab i) := by
    have := SlabState.Edit.carve hplace (by rw [hagrees.sizeClass]; exact hc)
      (by rw [hagrees.owner]; exact howner) (by rw [hagrees.bits]; exact hvalid)
      (by rw [hagrees.bits, hagrees.sizeClass]; exact helems)
    simpa [slab, hw, hclass] using this
  have hpos : 0 < count (m.sizeClass i) := by
    rw [hclass]
    exact LawfulBracket.count_pos _ hc
  have hother : ∀ j, j ≠ i → ({ m with
      remote := update m.remote i w
      place := update m.place i (.sized t)
      block := update m.block i fun b => if b < count (m.sizeClass i) then .slab else .gone } :
        HeapMem T B).slab j = m.slab j ∧
      ({ v with place := update v.place i .sized } : View T B).hold j = v.hold j :=
    fun j hj => ⟨by simp [slab, hj], by simp [View.hold, hj]⟩
  refine .edit hm h hedit (.of_sized (by simp [View.hold]) ⟨by simp [slab], 0, .inl ?_⟩
    ⟨hagrees.next, hagrees.owner, hagrees.sizeClass, hagrees.bits⟩) hother ⟨rfl, rfl, rfl, rfl, rfl⟩
    ⟨fun _ _ => rfl, h.head⟩ (h.hand_edit hm hedit (fun j hj => (hother j hj).1) rfl fun b => ?_)
    ⟨rfl, rfl, rfl⟩
  · simp [slab, hpos]
  · have hgone : m.block i b = .gone := (hm.slab i).gone (SlabState.not_carved_unsized hplace) b
    rw [hgone]
    refine iff_of_false ?_ (by simp)
    show update m.block i _ i b ≠ .thread t
    rw [update_self]
    split <;> simp

/-! ### Slabs that come and go -/

/-- The view with the slabs of `S` as the memory has them. -/
def gain (m : HeapMem T B) (S : Set (Index B)) [DecidablePred (· ∈ S)] (v : View T B) : View T B :=
  { v with
    place := fun i => if i ∈ S then .unsized else v.place i
    next := fun i => if i ∈ S then m.next i else v.next i
    owner := fun i => if i ∈ S then m.owner i else v.owner i
    sizeClass := fun i => if i ∈ S then m.sizeClass i else v.sizeClass i
    bits := fun i => if i ∈ S then m.bits i else v.bits i }

variable {S : Set (Index B)}

omit [DecidableEq T] in
theorem hold_gain [DecidablePred (· ∈ S)] (hi : i ∉ S) : (m.gain S v).hold i = v.hold i := by
  simp [View.hold, gain, hi]

omit [DecidableEq T] in
theorem gains_gain [DecidablePred (· ∈ S)] (hS : ∀ i ∈ S, v.place i = .away) :
    v.Gains S (m.gain S v) where
  head := rfl
  len := rfl
  away := hS
  gained _ hi := if_pos hi
  kept _ hi := hold_gain hi
  hand := rfl

omit [DecidableEq T] in
theorem Own.gain [DecidablePred (· ∈ S)]
    (hhead : ∀ k, m.head (.of t k) = v.head k) (hlen : ∀ k, m.len (.of t k) = v.len k)
    (hS : ∀ i ∈ S, m.place i = .unsized t) (hsees : ∀ i, i ∉ S → Sees t (v.hold i) (m.slab i))
    (hhand : ∀ i b, m.block i b = .thread t ↔ ∃ c, v.hand = some ⟨i, b, c⟩)
    (hclass : ∀ x, v.hand = some x → m.sizeClass x.index = x.sizeClass) (hseen : m.seen t = v.seen)
    (hlink : ∀ i x w, v.link = some (i, x) → v.seen = some w → w.inner = some i → m.global = w →
      m.next i = x) : Own t (m.gain S v) m where
  head := hhead
  len := hlen
  slab i := by
    by_cases hi : i ∈ S
    · refine .of_unsized (if_pos hi) (hS i hi) ⟨?_, ?_, ?_, ?_⟩ <;>
        simp [HeapMem.slab, View.hold, HeapMem.gain, hi]
    · rw [hold_gain hi]
      exact hsees i hi
  hand := hhand
  sizeClass := hclass
  seen := hseen
  link := hlink

variable {new : Word T (Option (Index B))}

/-- Slabs that nobody has had are handed out. -/
theorem after_bump [LawfulBracket B] (hm : m.Sound) (h : Own t v m)
    (hle : m.bumpIndex ≤ (new.inner.getD .min).value) (hlt : (new.inner.getD .min).value < 2 ^ 32) :
    let m' := ({ m with bump := new } : HeapMem T B).bumps t m.bump.inner new.inner
    After t m m' (m'.gain {i | m.bumpIndex ≤ i.value ∧ i.value < (new.inner.getD .min).value} v) := by
  intro m'
  have hin : ∀ {i : Index B}, m.bumpIndex ≤ i.value ∧ i.value < (new.inner.getD .min).value →
      m'.slab i = { m.slab i with place := .unsized t } := by
    intro i hi
    rw [Heap.bumpIndex] at hi
    simp only [slab, m', bumps]
    rw [if_pos hi]
  have hout : ∀ {i : Index B}, ¬ (m.bumpIndex ≤ i.value ∧ i.value < (new.inner.getD .min).value) →
      m'.slab i = m.slab i := by
    intro i hi
    rw [Heap.bumpIndex] at hi
    simp only [slab, m', bumps]
    rw [if_neg hi]
  have hchange : ∀ i, (m.slab i).Change t (m'.slab i) := by
    intro i
    by_cases hi : m.bumpIndex ≤ i.value ∧ i.value < (new.inner.getD .min).value
    · rw [hin hi]
      exact .bump ((hm.fresh i).mpr hi.1)
    · rw [hout hi]
      exact .same
  have hplace : ∀ i, m'.place i = if m.bumpIndex ≤ i.value ∧ i.value < (new.inner.getD .min).value
      then .unsized t else m.place i := fun _ => rfl
  obtain ⟨slabs, hseg, hmem⟩ := hm.stack
  refine ⟨⟨fun i => (hchange i).sound (hm.slab i), fun i => ?_, hlt, ⟨slabs, hseg, fun i => ?_⟩,
    hm.live, hm.nodup⟩, ⟨hchange, fun _ _ => rfl, fun _ _ => rfl, fun _ _ => rfl, .inl rfl⟩,
    .gain h.head h.len (fun i hi => if_pos hi) (fun i hi => ?_) h.hand h.sizeClass h.seen h.link⟩
  · show _ ↔ (new.inner.getD .min).value ≤ i.value
    rw [hplace]
    split_ifs with hi
    · simp [hi.2]
    · rw [hm.fresh]
      omega
  · rw [hmem, hplace]
    split_ifs with hi
    · simp [(hm.fresh i).mpr hi.1]
    · exact Iff.rfl
  · rw [hout hi]
    exact h.slab i

/-- A remote free that is not the last one. -/
theorem after_decrement [LawfulBracket B] (hm : m.Sound) (h : Own t v m) (hi : v.place i = .away)
    {b : ℕ} {c : B} (hhand : v.hand = some ⟨i, b, c⟩) {new : Word T Remote}
    (hnew : new.inner.free + 1 = (m.remote i).inner.free) (hne : new.inner.free ≠ 0) :
    After t m (({ m with remote := update m.remote i new } : HeapMem T B).decrements t i new.inner)
      { v with hand := none } := by
  have hthread := h.thread hhand
  have hblock : (fun b' => if m.block i b' = .thread t then .gone else m.block i b') =
      update (m.block i) b .gone := by
    funext b'
    by_cases hb' : b' = b
    · subst hb'
      simp [hthread]
    · rw [update_of_ne hb', if_neg fun hb => hb' (h.only hhand hb).2]
  have hm' : ({ m with remote := update m.remote i new } : HeapMem T B).decrements t i new.inner =
      { m with
        remote := update m.remote i new
        block := update m.block i (update (m.block i) b .gone) } := by
    simp only [decrements, hne, if_false]
    rw [← hblock]
  rw [hm']
  have hedit : (m.slab i).Edit t (({ m with
      remote := update m.remote i new
      block := update m.block i (update (m.block i) b .gone) } : HeapMem T B).slab i) := by
    have hfree : (m.remote i).inner.free - 1 = new.inner.free := by omega
    have := SlabState.Edit.decrement (x := m.slab i) hthread
      (show 1 < (m.remote i).inner.free by omega)
    simpa [slab, hfree] using this
  refine .edit hm h hedit (.of_away hi (fun hp => ?_) fun hpin => h.not_sized hhand hi hpin.1)
    (fun j hj => ⟨by simp [slab, hj], rfl⟩) ⟨rfl, rfl, rfl, rfl, rfl⟩ ⟨fun _ _ => rfl, h.head⟩
    ⟨fun j b' => iff_of_false (h.update_ne hhand (by simp) j b') (by simp), fun _ hx => by cases hx⟩
    ⟨rfl, rfl, rfl⟩
  have hp : v.place i = .unsized := h.unsized.mpr hp
  rw [hi] at hp
  cases hp

/-- The last remote free: the slab is the thread's own from here on. -/
theorem after_claim [LawfulBracket B] (hm : m.Sound) (h : Own t v m) {b : ℕ} {c : B}
    (hhand : v.hand = some ⟨i, b, c⟩) {new : Word T Remote} (hzero : new.inner.free = 0)
    (hone : (m.remote i).inner.free = 1) :
    let m' := ({ m with remote := update m.remote i new } : HeapMem T B).decrements t i new.inner
    After t m m' (m'.gain {j | j = i} { v with hand := none }) := by
  intro m'
  have hthread := h.thread hhand
  have hblock : (fun b' => if m.block i b' = .thread t then .gone else m.block i b') =
      fun _ => .gone := by
    funext b'
    by_cases hb' : b' = b
    · subst hb'
      rw [if_pos hthread]
    · have hgone : m.block i b' = .gone :=
        (hm.slab i).gone_of_one (b := b) (by simp [slab, hthread]) hone hb'
      rw [hgone]
      simp
  have hm' : m' = { m with
      remote := update m.remote i new
      place := update m.place i (.unsized t)
      block := update m.block i fun _ => .gone } := by
    simp only [m', decrements, hzero, if_true]
    rw [← hblock]
  have hedit : (m.slab i).Edit t (m'.slab i) := by
    have := SlabState.Edit.claim (x := m.slab i) hthread hone
    rw [hm']
    simpa [slab, hzero] using this
  have hother : ∀ j, j ≠ i → m'.slab j = m.slab j := fun j hj => by rw [hm']; simp [slab, hj]
  have hown : ∀ j, m'.next j = m.next j := fun j => by rw [hm']
  refine ⟨hm.edit hedit hother (by rw [hm']) (by rw [hm']) (by rw [hm']),
    .edit hedit hother (by rw [hm']) (fun s _ => by rw [hm']) (by rw [hm']) (by rw [hm']), .gain ?_ ?_ ?_
    (fun j hj => ?_) (fun j b' => iff_of_false (fun hb' => ?_) (by simp)) (fun _ hx => (by cases hx))
    ?_ ?_⟩
  · rw [hm']
    exact h.head
  · rw [hm']
    exact h.len
  · rintro j rfl
    rw [hm']
    simp
  · rw [hother j hj]
    exact h.slab j
  · rw [hm'] at hb'
    by_cases hj : j = i
    · subst hj
      simp at hb'
    · exact hj (h.only hhand (by simpa [hj] using hb')).1
  · rw [hm']
    exact h.seen
  · rw [hm']
    exact h.link

/-! ### The global stack -/

/-- The head is read. -/
theorem after_reads (hm : m.Sound) (h : Own t v m) {w : Word T (Option (Index B))} :
    After t m (m.reads t w) { v with seen := some w, link := none } where
  sound := hm.same (fun _ => rfl) rfl rfl rfl
  acts := .same (fun _ => rfl) rfl (fun _ _ => rfl) (fun _ hu => update_of_ne hu _ _) rfl
  own := { h with seen := update_self _ _ _, link := fun _ _ _ hlink => by cases hlink }

/-- A link is read that others may write: it is the right one if the slab is on top of the stack
that was read. -/
theorem after_loadLink (hm : m.Sound) (h : Own t v m) :
    After t m m { v with link := some (i, m.next i) } where
  sound := hm
  acts := .refl t m
  own := { h with link := fun j x w hlink _ _ _ => by cases hlink; rfl }

omit [DecidableEq T] in
/-- The batch that goes on the stack, followed from its head. -/
theorem mem_traceN {h : Heap T B} {place : Index B → SlabPlace T} {n : ℕ}
    {batch slabs : List (Index B)} {x : Option (Index B)}
    (hseg : Seg h.next x (batch ++ slabs) none) (hlen : batch.length ≤ n)
    (hslabs : ∀ j ∈ slabs, place j = .global) (j : Index B) :
    (if j ∈ h.traceN n x then .global else place j) =
      if j ∈ batch then SlabPlace.global else place j := by
  rw [Heap.traceN_eq n hseg, List.take_append, List.take_of_length_le hlen]
  by_cases hj : j ∈ batch
  · simp [hj]
  · by_cases hj' : j ∈ slabs
    · simp [hj, hslabs j hj']
    · have : j ∉ slabs.take (n - batch.length) := fun h => hj' (List.mem_of_mem_take h)
      simp [hj, this]

theorem after_push [LawfulBracket B] (cfg : Config) (hm : m.Sound) (h : Own t v m)
    {batch : List (Index B)} (hpush : v.Pushes cfg.batchGlobal batch m.global.inner new.inner)
    (hfresh : ∀ u, u ≠ t → m.seen u ≠ some new) :
    After t m (({ m with global := new } : HeapMem T B).swaps cfg t m.global.inner new.inner)
      { v with
        place := fun i => if i ∈ batch then .away else v.place i
        seen := none
        link := none } := by
  have hplace : ∀ i ∈ batch, m.place i = .unsized t := fun i hi => h.unsized.mp (hpush.own i hi)
  obtain ⟨slabs, hseg, hmem⟩ := hm.stack
  have hbatch : Seg m.next new.inner batch m.global.inner := by
    refine hpush.seg.congr fun i hi => ?_
    exact (h.agrees (i := i) (by simp [hpush.own i hi])).next
  have hchain : Seg m.next new.inner (batch ++ slabs) none :=
    Lib.seg_append.mpr ⟨_, hbatch, hseg⟩
  have hpushes : (new.inner.any fun i => m.place i = .unsized t) = true := by
    obtain ⟨i, rest, hb⟩ := List.exists_cons_of_ne_nil hpush.ne_nil
    have hhead : new.inner = some i := by
      rw [hb] at hbatch
      exact hbatch.1
    rw [hhead]
    simp [hplace i (by rw [hb]; exact List.mem_cons_self)]
  have hm' : ({ m with global := new } : HeapMem T B).swaps cfg t m.global.inner new.inner =
      { m with
        global := new
        place := fun i => if i ∈ batch then .global else m.place i
        seen := update m.seen t none } := by
    rw [swaps]
    simp only [hpushes, if_true]
    congr 1
    funext i
    exact mem_traceN (h := { m.toHeap with global := new }) hchain hpush.length
      (fun j hj => (hmem j).mp hj) i
  rw [hm']
  have hin : ∀ {i}, i ∈ batch → ({ m with
      global := new
      place := fun i => if i ∈ batch then .global else m.place i
      seen := update m.seen t none } : HeapMem T B).slab i =
      { m.slab i with place := .global } := fun hi => by simp [slab, hi]
  have hout : ∀ {i}, i ∉ batch → ({ m with
      global := new
      place := fun i => if i ∈ batch then .global else m.place i
      seen := update m.seen t none } : HeapMem T B).slab i = m.slab i :=
    fun hi => by simp [slab, hi]
  have hchange : ∀ i, (m.slab i).Change t (({ m with
      global := new
      place := fun i => if i ∈ batch then .global else m.place i
      seen := update m.seen t none } : HeapMem T B).slab i) := by
    intro i
    by_cases hi : i ∈ batch
    · rw [hin hi]
      exact .push (hplace i hi)
    · rw [hout hi]
      exact .same
  refine ⟨⟨fun i => (hchange i).sound (hm.slab i), fun i => ?_, hm.bound,
    ⟨batch ++ slabs, hchain, fun i => ?_⟩, hm.live, hm.nodup⟩,
    ⟨hchange, fun _ _ => rfl, fun _ _ => rfl, fun _ hu => update_of_ne hu _ _, .inr hfresh⟩,
    { h with slab := fun i => ?_, seen := update_self _ _ _, link := fun _ _ _ hl => by cases hl }⟩
  · show (if i ∈ batch then .global else m.place i) = .fresh ↔ m.bumpIndex ≤ i.value
    rw [← hm.fresh]
    split_ifs with hi
    · simp [hplace i hi]
    · exact Iff.rfl
  · show _ ↔ (if i ∈ batch then .global else m.place i) = .global
    rw [List.mem_append, hmem]
    split_ifs with hi <;> simp [hi]
  · by_cases hi : i ∈ batch
    · exact .of_away (if_pos hi) (by rw [hin hi]; simp) (by rw [hin hi]; simp [SlabState.Pinned])
    · rw [hout hi]
      have hhold : ({ v with
          place := fun i => if i ∈ batch then .away else v.place i
          seen := none
          link := none } : View T B).hold i = v.hold i := by simp [View.hold, hi]
      rw [hhold]
      exact h.slab i

theorem after_pop [LawfulBracket B] (cfg : Config) (hm : m.Sound) (h : Own t v m)
    (hpop : v.Pops i m.global new) (hfresh : ∀ u, u ≠ t → m.seen u ≠ some new) :
    let m' := ({ m with global := new } : HeapMem T B).swaps cfg t m.global.inner new.inner
    After t m m' (m'.gain {j | j = i} { v with seen := none, link := none }) := by
  intro m'
  have hnext : m.next i = new.inner := h.link i _ _ hpop.link hpop.seen hpop.inner rfl
  have hplace : m.place i = .global := hm.place_head hpop.inner
  obtain ⟨slabs, hseg, hmem⟩ := hm.stack
  obtain ⟨rest, rfl⟩ : ∃ rest, slabs = i :: rest := by
    rw [hpop.inner] at hseg
    cases slabs with
    | nil => cases hseg
    | cons j rest =>
      obtain rfl := Option.some.inj hseg.1
      exact ⟨rest, rfl⟩
  have hnodup := hseg.nodup
  have hrest : Seg m.next new.inner rest none := by
    rw [← hnext]
    exact hseg.2
  -- what becomes the head is on the stack, so this is not a push
  have hpushes : (new.inner.any fun j => m.place j = .unsized t) = false := by
    rw [hrest.head_eq]
    cases rest with
    | nil => rfl
    | cons j rest => simp [(hmem j).mp (by simp)]
  have hm' : m' = { m with
      global := new
      place := update m.place i (.unsized t)
      seen := update m.seen t none } := by
    simp only [m', swaps, hpushes, Bool.false_eq_true, if_false]
    congr 1
    funext j
    by_cases hj : j = i
    · subst hj
      simp [hpop.inner]
    · rw [update_of_ne hj, if_neg]
      rw [hpop.inner]
      exact fun he => hj (Option.some.inj he).symm
  have hin : m'.slab i = { m.slab i with place := .unsized t } := by
    rw [hm']
    simp [slab]
  have hout : ∀ j, j ≠ i → m'.slab j = m.slab j := fun j hj => by
    rw [hm']
    simp [slab, hj]
  have hchange : ∀ j, (m.slab j).Change t (m'.slab j) := by
    intro j
    by_cases hj : j = i
    · subst hj
      rw [hin]
      exact .pop hplace
    · rw [hout j hj]
      exact .same
  have hplace' : ∀ j, m'.place j = update m.place i (.unsized t) j := fun j => by rw [hm']
  have hglobal : m'.global = new := by rw [hm']
  refine ⟨⟨fun j => (hchange j).sound (hm.slab j), fun j => ?_, ?_, ⟨rest, ?_, fun j => ?_⟩, ?_, ?_⟩,
    ⟨hchange, fun s _ => by rw [hm'], fun s _ => by rw [hm'], fun u hu => ?_, .inr ?_⟩,
    .gain ?_ ?_ ?_ (fun j hj => ?_) ?_ ?_ ?_ (fun _ _ _ hl => by cases hl)⟩
  · rw [hplace', show m'.bumpIndex = m.bumpIndex by rw [hm']; rfl, ← hm.fresh]
    by_cases hj : j = i
    · subst hj
      simp [hplace]
    · rw [update_of_ne hj]
  · rw [show m'.bumpIndex = m.bumpIndex by rw [hm']; rfl]
    exact hm.bound
  · rw [hglobal, show m'.next = m.next by rw [hm']]
    exact hrest
  · rw [hplace']
    by_cases hj : j = i
    · subst hj
      simp [(List.nodup_cons.mp hnodup).1]
    · rw [update_of_ne hj, ← hmem]
      simp [hj]
  · rw [hm']
    exact hm.live
  · rw [hm']
    exact hm.nodup
  · rw [hm']
    exact update_of_ne hu _ _
  · rw [hglobal]
    exact hfresh
  · rw [hm']
    exact h.head
  · rw [hm']
    exact h.len
  · rintro j rfl
    rw [hplace', update_self]
  · rw [hout j hj]
    exact h.slab j
  · rw [hm']
    exact h.hand
  · rw [hm']
    exact h.sizeClass
  · rw [hm']
    exact update_self _ _ _

end HeapMem

end Cxlalloc
