/-
The slab heap under every interleaving: the invariant, and what a thread owns.

`Sound` is what holds between any two accesses.  Every slab is sound by itself, the global stack
is a chain of exactly the slabs noted to be there, and the blocks the application holds are those
noted to be with it.

A `View` is what a thread knows: its stacks, the records of its slabs, the block in its hands, and
what it has read of the global stack.  `Own t v m` says that the view is right.  The others keep it
right (`stable_own`): they write to none of that, and if the head of the global stack is still the
one that was read, so is the link behind it.  To a thread that may crash they do what `Leaves` says
(`Acts.leaves`).
-/
import Cxlalloc.Lib.View
import Cxlalloc.Proofs.Crash
import Cxlalloc.Proofs.HeapSteps

namespace Cxlalloc

open Lib
open Lib.Protocol
open Cxlalloc.Bracket
open Function

namespace HeapMem

variable {T B : Type} [Bracket B] {m m' : HeapMem T B} {t u : T} {i : Index B}

/-! ### The invariant -/

/-- What the memory has about a slab. -/
def slab (m : HeapMem T B) (i : Index B) : SlabState T B where
  place := m.place i
  block := m.block i
  next := m.next i
  owner := m.owner i
  sizeClass := m.sizeClass i
  bits := m.bits i
  free := (m.remote i).inner.free

/-- The application holds the block of class `c` at the offset. -/
def Holds (m : HeapMem T B) (o : Offset B) (c : B) : Prop :=
  ∃ (i : Index B) (b : Bit), o = .fromBlock c i b ∧ m.sizeClass i = c ∧
    m.block i b.toNat = .application

variable [DecidableEq T]

/-- What holds between any two accesses. -/
structure Sound (m : HeapMem T B) : Prop where
  slab : ∀ i, (m.slab i).Sound
  fresh : ∀ i, m.place i = .fresh ↔ m.bumpIndex ≤ i.value
  bound : m.bumpIndex < 2 ^ 32
  stack : ∃ slabs, Seg m.next m.global.inner slabs none ∧ ∀ i, i ∈ slabs ↔ m.place i = .global
  live : ∀ o c, (o, c) ∈ m.live ↔ m.Holds o c
  nodup : m.live.Nodup

/-- What an access of thread `u` does. -/
structure Acts (u : T) (m m' : HeapMem T B) : Prop where
  slab : ∀ i, (m.slab i).Change u (m'.slab i)
  head : ∀ s, s.thread ≠ u → m'.head s = m.head s
  len : ∀ s, s.thread ≠ u → m'.len s = m.len s
  seen : ∀ t, t ≠ u → m'.seen t = m.seen t
  global : m'.global = m.global ∨ ∀ t, t ≠ u → m.seen t ≠ some m'.global

omit [DecidableEq T] in
/-- An access of thread `u` writes no record of another thread, and in no other row of the help
array. -/
def Private (u : T) (m m' : HeapMem T B) : Prop :=
  ∀ t, t ≠ u → m'.log t = m.log t ∧ m'.help t = m.help t

omit [DecidableEq T] in
theorem Acts.refl (u : T) (m : HeapMem T B) : Acts u m m where
  slab _ := .same
  head _ _ := rfl
  len _ _ := rfl
  seen _ _ := rfl
  global := .inl rfl

omit [DecidableEq T] in
/-- What the application holds depends on its blocks and on their classes. -/
theorem Holds.congr {o : Offset B} {c : B} (h : m.Holds o c)
    (hkeep : ∀ i b, m.block i b = .application →
      m'.block i b = .application ∧ m'.sizeClass i = m.sizeClass i) : m'.Holds o c := by
  obtain ⟨i, b, ho, hc, hb⟩ := h
  obtain ⟨hb', hc'⟩ := hkeep i _ hb
  exact ⟨i, b, ho, hc'.trans hc, hb'⟩

theorem Sound.carved (hm : m.Sound) {b : ℕ} (hb : m.block i b ≠ .gone) : (m.slab i).Carved :=
  (hm.slab i).carved b hb

/-- The slab on top of the global stack. -/
theorem Sound.place_head (hm : m.Sound) (hi : m.global.inner = some i) : m.place i = .global := by
  obtain ⟨slabs, hseg, hmem⟩ := hm.stack
  refine (hmem i).mp ?_
  rw [hi] at hseg
  cases slabs with
  | nil => cases hseg
  | cons j slabs =>
    obtain rfl := Option.some.inj hseg.1
    exact List.mem_cons_self

/-- What is not noted about slabs, and not on the global stack, does not matter. -/
theorem Sound.same (hm : m.Sound) (hslab : ∀ i, m'.slab i = m.slab i)
    (hglobal : m'.global = m.global) (hbump : m'.bump = m.bump) (hlive : m'.live = m.live) :
    m'.Sound := by
  have hplace : ∀ i, m'.place i = m.place i := fun i => congrArg SlabState.place (hslab i)
  have hnext : ∀ i, m'.next i = m.next i := fun i => congrArg SlabState.next (hslab i)
  have hclass : ∀ i, m'.sizeClass i = m.sizeClass i := fun i =>
    congrArg SlabState.sizeClass (hslab i)
  have hblock : ∀ i, m'.block i = m.block i := fun i => congrArg SlabState.block (hslab i)
  have hindex : m'.bumpIndex = m.bumpIndex := by rw [Heap.bumpIndex, Heap.bumpIndex, hbump]
  obtain ⟨slabs, hseg, hmem⟩ := hm.stack
  refine ⟨fun i => ?_, fun i => ?_, ?_, ⟨slabs, ?_, fun i => ?_⟩, fun o c => ?_, ?_⟩
  · rw [hslab]
    exact hm.slab i
  · rw [hplace, hindex]
    exact hm.fresh i
  · rw [hindex]
    exact hm.bound
  · rw [hglobal]
    exact hseg.congr fun i _ => hnext i
  · rw [hplace]
    exact hmem i
  · rw [hlive, hm.live]
    constructor
    · exact fun h => h.congr fun i b hb => ⟨by rw [hblock]; exact hb, hclass i⟩
    · exact fun h => h.congr fun i b hb => ⟨by rw [← hblock]; exact hb, (hclass i).symm⟩
  · rw [hlive]
    exact hm.nodup

/-- An edit of one slab. -/
theorem Sound.edit [LawfulBracket B] (hm : m.Sound) (hi : (m.slab i).Edit t (m'.slab i))
    (hother : ∀ j, j ≠ i → m'.slab j = m.slab j) (hglobal : m'.global = m.global)
    (hbump : m'.bump = m.bump) (hlive : m'.live = m.live) : m'.Sound := by
  have hindex : m'.bumpIndex = m.bumpIndex := by rw [Heap.bumpIndex, Heap.bumpIndex, hbump]
  have hplace : ∀ {p}, p = .fresh ∨ p = .global → ∀ j, m'.place j = p ↔ m.place j = p := by
    intro p hp j
    by_cases hj : j = i
    · subst hj
      have hbefore := hi.place (hm.slab j)
      have hafter := hi.place_after (hm.slab j)
      rcases hp with rfl | rfl
      · exact iff_of_false hafter.1 hbefore.1
      · exact iff_of_false hafter.2 hbefore.2
    · rw [show m'.place j = m.place j from congrArg SlabState.place (hother j hj)]
  have happ : ∀ j b, m'.block j b = .application ↔ m.block j b = .application := by
    intro j b
    by_cases hj : j = i
    · subst hj
      exact hi.block_application (hm.slab j)
    · rw [show m'.block j = m.block j from congrArg SlabState.block (hother j hj)]
  have hclass : ∀ j b, m.block j b = .application → m'.sizeClass j = m.sizeClass j := by
    intro j b hb
    by_cases hj : j = i
    · subst hj
      exact SlabState.Change.sizeClass (.edit hi) (hm.carved (b := b) (by simp [hb]))
    · exact congrArg SlabState.sizeClass (hother j hj)
  obtain ⟨slabs, hseg, hmem⟩ := hm.stack
  refine ⟨fun j => ?_, fun j => ?_, ?_, ⟨slabs, ?_, fun j => ?_⟩, fun o c => ?_, ?_⟩
  · by_cases hj : j = i
    · subst hj
      exact hi.sound (hm.slab j)
    · rw [hother j hj]
      exact hm.slab j
  · rw [hplace (.inl rfl), hindex]
    exact hm.fresh j
  · rw [hindex]
    exact hm.bound
  · rw [hglobal]
    refine hseg.congr fun j hj => congrArg SlabState.next (hother j ?_)
    rintro rfl
    exact (hi.place (hm.slab j)).2 ((hmem j).mp hj)
  · rw [hplace (.inr rfl)]
    exact hmem j
  · rw [hlive, hm.live]
    constructor
    · exact fun h => h.congr fun j b hb => ⟨(happ j b).mpr hb, hclass j b hb⟩
    · exact fun h => h.congr fun j b hb =>
        ⟨(happ j b).mp hb, (hclass j b ((happ j b).mp hb)).symm⟩
  · rw [hlive]
    exact hm.nodup

omit [DecidableEq T] in
theorem Acts.edit (hi : (m.slab i).Edit t (m'.slab i))
    (hother : ∀ j, j ≠ i → m'.slab j = m.slab j) (hglobal : m'.global = m.global)
    (hhead : ∀ s, s.thread ≠ t → m'.head s = m.head s) (hlen : m'.len = m.len)
    (hseen : m'.seen = m.seen) : Acts t m m' where
  slab j := by
    by_cases hj : j = i
    · subst hj
      exact .edit hi
    · rw [hother j hj]
      exact .same
  head := hhead
  len _ _ := by rw [hlen]
  seen _ _ := by rw [hseen]
  global := .inl hglobal

end HeapMem

/-! ### What a thread owns -/

/-- The block in a thread's hands. -/
structure Hand (B : Type) where
  index : Index B
  block : ℕ
  sizeClass : B

/-- What a thread knows. -/
structure View (T B : Type) [Bracket B] where
  /-- The unsized stack, and the one of each class. -/
  head : Option B → Option (Index B)
  len : Option B → ℕ
  place : Index B → Standing
  next : Index B → Option (Index B)
  owner : Index B → Option T
  sizeClass : Index B → B
  bits : Index B → BitSet (rows B)
  hand : Option (Hand B)
  /-- The head of the global stack that was read last. -/
  seen : Option (Word T (Option (Index B)))
  /-- The link that was read behind it. -/
  link : Option (Index B × Option (Index B))

/-- The copy of a slab's record. -/
def View.hold {T B : Type} [Bracket B] (v : View T B) (i : Index B) : Holding T B where
  place := v.place i
  next := v.next i
  owner := v.owner i
  sizeClass := v.sizeClass i
  bits := v.bits i

/-- The stacks of a thread are in order: its slabs are on its unsized stack, and those it has
carved on the stack of their class as long as they have a free block.  A length may be too large,
but never too small. -/
structure View.Ok {T B : Type} [Bracket B] (t : T) (v : View T B) (L : Option B → List (Index B)) :
    Prop where
  chains : Chains v.next v.head L
  len : ∀ k, (L k).length ≤ v.len k
  unsized : ∀ i, i ∈ L none ↔ v.place i = .unsized
  sized : ∀ c i, i ∈ L (some c) ↔
    v.place i = .sized ∧ v.sizeClass i = c ∧ (v.bits i).elems.Nonempty
  owner : ∀ i, v.place i = .unsized → v.owner i = some t

namespace HeapMem

variable {T B : Type} [Bracket B] {m m' : HeapMem T B} {t u : T} {i : Index B}
  {v : View T B}

/-- The view of thread `t` is right. -/
structure Own (t : T) (v : View T B) (m : HeapMem T B) : Prop where
  head : ∀ k, m.head (.of t k) = v.head k
  len : ∀ k, m.len (.of t k) = v.len k
  slab : ∀ i, Sees t (v.hold i) (m.slab i)
  hand : ∀ i b, m.block i b = .thread t ↔ ∃ c, v.hand = some ⟨i, b, c⟩
  sizeClass : ∀ x, v.hand = some x → m.sizeClass x.index = x.sizeClass
  seen : m.seen t = v.seen
  link : ∀ i x w, v.link = some (i, x) → v.seen = some w → w.inner = some i → m.global = w →
    m.next i = x

/-- Between two calls, the stacks of a thread are in order and it has no block in its hands. -/
def Rest (t : T) (m : HeapMem T B) : Prop :=
  ∃ v L, View.Ok t v L ∧ v.hand = none ∧ Own t v m

theorem Own.acts [DecidableEq T] (h : Own t v m) (hm : m.Sound) (hu : u ≠ t)
    (hacts : Acts u m m') : Own t v m' where
  head k := by
    rw [hacts.head _ (by rw [StackId.thread_of]; exact hu.symm)]
    exact h.head k
  len k := by
    rw [hacts.len _ (by rw [StackId.thread_of]; exact hu.symm)]
    exact h.len k
  slab i := (h.slab i).change (hacts.slab i) (hm.slab i) hu
  hand i b := ((hacts.slab i).block_thread (hm.slab i) hu).trans (h.hand i b)
  sizeClass x hx := by
    have hb : m.block x.index x.block = .thread t := (h.hand _ _).mpr ⟨x.sizeClass, hx⟩
    have hclass := (hacts.slab x.index).sizeClass (hm.carved (b := x.block) (by simp [hb]))
    exact (show m'.sizeClass x.index = m.sizeClass x.index from hclass).trans (h.sizeClass x hx)
  seen := (hacts.seen t hu.symm).trans h.seen
  link i x w hlink hseen hi hw := by
    -- the head has not been away, so the slab has been on the stack all the time
    have hsame : m.global = w := by
      rcases hacts.global with hglobal | hglobal
      · exact hglobal.symm.trans hw
      · refine absurd ?_ (hglobal t hu.symm)
        rw [h.seen, hseen, hw]
    have hplace : (m.slab i).place = .global := hm.place_head (by rw [hsame]; exact hi)
    have hnext := ((hacts.slab i).fields (by simp [hplace]) (by simp [hplace])).1
    exact (show m'.next i = m.next i from hnext).trans (h.link i x w hlink hseen hi hsame)

/-- A slab that is the thread's own, with all there is to know of it. -/
theorem Own.agrees (h : Own t v m) (hi : v.place i ≠ .away) : (v.hold i).Agrees (m.slab i) :=
  (h.slab i).agrees hi

theorem Own.unsized (h : Own t v m) : v.place i = .unsized ↔ m.place i = .unsized t :=
  (h.slab i).unsized

theorem Own.sized (h : Own t v m) : v.place i = .sized ↔ (m.slab i).Pinned t :=
  (h.slab i).sized

/-- The bitset of a carved slab that is the thread's own. -/
theorem Own.mem_bits [DecidableEq T] (h : Own t v m) (hm : m.Sound) (hi : v.place i = .sized)
    (b : ℕ) : b ∈ (v.bits i).elems ↔ m.block i b = .slab := by
  have hbits : m.bits i = v.bits i := (h.agrees (i := i) (by simp [hi])).bits
  rw [← hbits]
  exact (hm.slab i).mem_bits t (h.sized.mp hi).1 b

theorem Own.not_thread (h : Own t v m) (hhand : v.hand = none) (j : Index B) (b : ℕ) :
    m.block j b ≠ .thread t := fun hb => by
  obtain ⟨c, hc⟩ := (h.hand j b).mp hb
  rw [hhand] at hc
  cases hc

section Hand

variable {b : ℕ} {c : B}

theorem Own.thread (h : Own t v m) (hhand : v.hand = some ⟨i, b, c⟩) : m.block i b = .thread t :=
  (h.hand i b).mpr ⟨c, hhand⟩

/-- The block in the thread's hands is the only one that it has. -/
theorem Own.only (h : Own t v m) (hhand : v.hand = some ⟨i, b, c⟩) {j : Index B} {k : ℕ}
    (hk : m.block j k = .thread t) : j = i ∧ k = b := by
  obtain ⟨c', hc'⟩ := (h.hand j k).mp hk
  rw [hhand] at hc'
  cases hc'
  exact ⟨rfl, rfl⟩

/-- Without that block, the thread has none. -/
theorem Own.update_ne (h : Own t v m) (hhand : v.hand = some ⟨i, b, c⟩) {p : BlockPlace T}
    (hp : p ≠ .thread t) (j : Index B) (k : ℕ) :
    update m.block i (update (m.block i) b p) j k ≠ .thread t := fun hk => by
  by_cases hj : j = i
  · subst hj
    by_cases hkb : k = b
    · subst hkb
      exact hp (by simpa using hk)
    · exact hkb (h.only hhand (by simpa [hkb] using hk)).2
  · exact hj (h.only hhand (by simpa [hj] using hk)).1

/-- A slab that is not the thread's own although it has one of its blocks. -/
theorem Own.not_sized (h : Own t v m) (hhand : v.hand = some ⟨i, b, c⟩) (hi : v.place i = .away) :
    m.place i ≠ .sized t := fun hp => by
  have hpin : v.place i = .sized := h.sized.mpr ⟨hp, b, .inr (h.thread hhand)⟩
  rw [hi] at hpin
  cases hpin

end Hand

/-! ### The thread's own steps -/

theorem Acts.same (hslab : ∀ i, m'.slab i = m.slab i) (hhead : m'.head = m.head)
    (hlen : ∀ s, s.thread ≠ t → m'.len s = m.len s) (hseen : ∀ u, u ≠ t → m'.seen u = m.seen u)
    (hglobal : m'.global = m.global) : Acts t m m' where
  slab i := by
    rw [hslab]
    exact .same
  head _ _ := by rw [hhead]
  len := hlen
  seen := hseen
  global := .inl hglobal

theorem Own.same (h : Own t v m) (hslab : ∀ i, m'.slab i = m.slab i) (hhead : m'.head = m.head)
    (hlen : m'.len = m.len) (hseen : m'.seen = m.seen) (hglobal : m'.global = m.global) :
    Own t v m' where
  head k := by
    rw [hhead]
    exact h.head k
  len k := by
    rw [hlen]
    exact h.len k
  slab i := by
    rw [hslab]
    exact h.slab i
  hand i b := by
    rw [show m'.block i = m.block i from congrArg SlabState.block (hslab i)]
    exact h.hand i b
  sizeClass x hx := by
    rw [show m'.sizeClass x.index = _ from congrArg SlabState.sizeClass (hslab x.index)]
    exact h.sizeClass x hx
  seen := by
    rw [hseen]
    exact h.seen
  link i x w := by
    rw [hglobal, show m'.next i = _ from congrArg SlabState.next (hslab i)]
    exact h.link i x w

/-- After an edit of one slab, the thread knows what it knew of the others. -/
theorem Own.edit [DecidableEq T] {v' : View T B} (h : Own t v m) (hm : m.Sound)
    (hedit : (m.slab i).Edit t (m'.slab i)) (hother : ∀ j, j ≠ i → m'.slab j = m.slab j)
    (hglobal : m'.global = m.global) (hseen : m'.seen = m.seen)
    (hhead : ∀ k, m'.head (.of t k) = v'.head k) (hlen : m'.len = m.len ∧ v'.len = v.len)
    (hi : Sees t (v'.hold i) (m'.slab i)) (hhold : ∀ j, j ≠ i → v'.hold j = v.hold j)
    (hhand : ∀ j b, m'.block j b = .thread t ↔ ∃ c, v'.hand = some ⟨j, b, c⟩)
    (hclass : ∀ x, v'.hand = some x → m'.sizeClass x.index = x.sizeClass)
    (hread : v'.seen = v.seen ∧ v'.link = v.link) : Own t v' m' where
  head := hhead
  len k := by
    rw [hlen.1, hlen.2]
    exact h.len k
  slab j := by
    by_cases hj : j = i
    · subst hj
      exact hi
    · rw [hother j hj, hhold j hj]
      exact h.slab j
  hand := hhand
  sizeClass := hclass
  seen := by
    rw [hseen, hread.1]
    exact h.seen
  link j x w hlink hw hj hg := by
    rw [hread.2] at hlink
    rw [hread.1] at hw
    rw [hglobal] at hg
    have hji : j ≠ i := by
      rintro rfl
      exact (hedit.place (hm.slab j)).2 (hm.place_head (by rw [hg]; exact hj))
    rw [show m'.next j = _ from congrArg SlabState.next (hother j hji)]
    exact h.link j x w hlink hw hj hg

/-- An edit that leaves the block in the thread's hands where it is. -/
theorem Own.hand_edit [DecidableEq T] {v' : View T B} (h : Own t v m) (hm : m.Sound)
    (hedit : (m.slab i).Edit t (m'.slab i)) (hother : ∀ j, j ≠ i → m'.slab j = m.slab j)
    (hhand : v'.hand = v.hand) (hblock : ∀ b, m'.block i b = .thread t ↔ m.block i b = .thread t) :
    (∀ j b, m'.block j b = .thread t ↔ ∃ c, v'.hand = some ⟨j, b, c⟩) ∧
      ∀ x, v'.hand = some x → m'.sizeClass x.index = x.sizeClass := by
  refine ⟨fun j b => ?_, fun x hx => ?_⟩
  · rw [hhand, ← h.hand]
    by_cases hj : j = i
    · subst hj
      exact hblock b
    · rw [show m'.block j = _ from congrArg SlabState.block (hother j hj)]
      rfl
  · rw [hhand] at hx
    rw [← h.sizeClass x hx]
    by_cases hj : x.index = i
    · have hb : m.block x.index x.block = .thread t := (h.hand _ _).mpr ⟨x.sizeClass, hx⟩
      have hcarved := hm.carved (i := x.index) (b := x.block) (by simp [hb])
      rw [hj] at hcarved ⊢
      exact SlabState.Change.sizeClass (.edit hedit) hcarved
    · exact congrArg SlabState.sizeClass (hother _ hj)

/-! ### What the others leave alone -/

variable {x : Tracked T B}

/-- The slabs that are the thread's own whatever the others do. -/
def ownedBy (t : T) (m : HeapMem T B) : Set (Index B) :=
  {i | m.place i = .unsized t ∨ (m.slab i).Pinned t}

/-- The memory with the ghost state of thread `t`, where `x` has what the thread did itself. -/
def tracked (t : T) (x : Tracked T B) (m : HeapMem T B) : Tracked T B :=
  { x with
    toMem := m.toMem
    mine := m.ownedBy t
    theirs := {i | i ∉ m.ownedBy t ∧ m.place i ≠ .global} }

/-- The block that the thread is to free is in its hands until it is counted. -/
def Freeing (t : T) (x : Tracked T B) (m : HeapMem T B) : Prop :=
  ∀ i ∈ x.freeing, x.frees = [] → ∃ b, m.block i b = .thread t

theorem place_owned {p : SlabPlace T} (hi : i ∈ m.ownedBy t) (hunsized : p ≠ .unsized t)
    (hsized : p ≠ .sized t) : m.place i ≠ p := by
  rintro rfl
  rcases hi with hi | hi
  · exact hunsized hi
  · exact hsized hi.1

variable [DecidableEq T]

theorem Sound.apart (hm : m.Sound) : (m.tracked t x).Apart := by
  obtain ⟨slabs, hseg, hslabs⟩ := hm.stack
  refine ⟨⟨slabs, hseg, fun i => ?_⟩, fun i hi h => h.1 hi, fun i hi => ?_⟩
  · rw [hslabs]
    constructor
    · exact fun hp => ⟨fun hi => place_owned hi (by simp) (by simp) hp, fun hi => hi.2 hp⟩
    · exact fun h => of_not_not fun hp => h.2 ⟨h.1, hp⟩
  · have hfresh : m.place i ≠ .fresh := fun hp =>
      hi ⟨fun hi => place_owned hi (by simp) (by simp) hp, by simp [hp]⟩
    have hbound := hm.bound
    rw [Ne, hm.fresh] at hfresh
    omega

/-- A slab is counted as long as a thread has a block of it to free. -/
theorem Sound.pending {b : ℕ} (hm : m.Sound) (hb : m.block i b = .thread t)
    (hi : i ∉ m.ownedBy t) : (m.tracked t x).Pending i := by
  have hcarved := hm.carved (i := i) (b := b) (by simp [hb])
  refine ⟨⟨hi, fun hp => ?_⟩, hi, (hm.slab i).pos hcarved⟩
  simp [SlabState.Carved, show (m.slab i).place = .global from hp] at hcarved

/-- **A step of another thread leaves thread `t` alone.** -/
theorem Acts.leaves (hacts : Acts u m m') (hprivate : Private u m m') (hm : m.Sound)
    (hm' : m'.Sound) (hu : u ≠ t) (hx : m.Freeing t x) :
    Tracked.Leaves t (m.tracked t x) (m'.tracked t x) := by
  have hmine : m'.ownedBy t = m.ownedBy t := Set.ext fun i =>
    or_congr ((hacts.slab i).place_unsized (hm.slab i) hu) ((hacts.slab i).pinned (hm.slab i) hu)
  have hunsized : ∀ i ∈ m.ownedBy t, (m.slab i).place ≠ .unsized u := fun i hi =>
    place_owned hi (by simpa using hu) (by simp)
  have hfields := fun i (hi : i ∈ m.ownedBy t) =>
    (hacts.slab i).fields (hunsized i hi) (place_owned hi (by simp) (by simpa using hu))
  exact {
    head s hs := hacts.head s (hs ▸ hu.symm)
    len s hs := hacts.len s (hs ▸ hu.symm)
    log := (hprivate t hu.symm).1
    version := congrFun (hprivate t hu.symm).2 t
    cas := rfl
    mine := hmine
    frees := rfl
    freeing := rfl
    next i hi := (hfields i hi).1
    owner i hi := (hfields i hi).2.1
    sizeClass i hi := (hfields i hi).2.2.1
    bits i hi := (hfields i hi).2.2.2
    counter i hi hfull := by
      refine congrArg Remote.mk ((hacts.slab i).free (hunsized i hi) fun b hb => ?_)
      rcases hi with hi | hi
      · exact SlabState.not_carved_unsized hi ((hm.slab i).carved b (by simp [hb]))
      · rcases (hm.slab i).full hi.1 hfull b with h | h <;> simp [hb] at h
    apart _ := hm'.apart
    pending i hi hfrees h := by
      obtain ⟨b, hb⟩ := hx i hi hfrees
      refine hm'.pending (((hacts.slab i).block_thread (hm.slab i) hu).mpr hb) ?_
      rw [hmine]
      exact h.2.1 }

end HeapMem

end Cxlalloc
