/-
The allocator never hands out a block twice.

`AllocInv` puts together what is known of the three heaps: a ledger for each of the two
that are carved into slabs, and the invariant of the huge one.  The small heap also keeps
the huge descriptors; to its ledger they are live blocks that no caller holds.  Every
completed call keeps `AllocInv`.  It implies that live blocks are disjoint, because a
live pointer names one block of one ledger and the regions do not meet.
-/
import Cxlalloc.Allocator
import Cxlalloc.Proofs.Session
import Cxlalloc.Proofs.Huge

namespace Cxlalloc

open Lib.Prog
open Cxlalloc.Bracket
open Relation
open Function

/-! ### Pointers and offsets -/

namespace Data

variable {B : Type} [Bracket B] {d : Data B} {o o' : Offset B} {p n : ℕ}

/-- The offset points into the region. -/
def Inside (o : Offset B) : Prop :=
  sizeSlab B ≤ o.value ∧ o.value < sizeSlab B + reservationSize

theorem offsetToPointer_eq : d.offsetToPointer o + sizeSlab B = d.start + o.value := by
  rw [offsetToPointer, start]
  omega

theorem checked_eq_some_iff :
    d.checkedPointerToOffset p = some o ↔ p = d.offsetToPointer o ∧ Inside o := by
  have hpos := o.pos
  rw [checkedPointerToOffset, Option.filter_eq_some_iff, pointerToOffset]
  simp only [Option.dite_none_right_eq_some, Option.some.injEq, Bool.and_eq_true,
    decide_eq_true_eq, Inside, offsetToPointer]
  constructor
  · rintro ⟨⟨h, rfl⟩, hle, hfit⟩
    simp only at hle hfit ⊢
    omega
  · rintro ⟨rfl, hle, hfit⟩
    exact ⟨⟨by omega, Offset.ext (by simp)⟩, hle, by omega⟩

/-- A pointer outside the region has no offset. -/
theorem checked_eq_none (hp : p < d.start ∨ d.start + reservationSize ≤ p) :
    d.checkedPointerToOffset p = none := by
  rw [Option.eq_none_iff_forall_ne_some]
  intro o ho
  obtain ⟨rfl, hle, hlt⟩ := checked_eq_some_iff.mp ho
  have := offsetToPointer_eq (d := d) (o := o)
  omega

theorem offsetToPointer_mem (ho : Inside o) :
    d.start ≤ d.offsetToPointer o ∧ d.offsetToPointer o < d.start + reservationSize := by
  have := offsetToPointer_eq (d := d) (o := o)
  obtain ⟨hle, hlt⟩ := ho
  omega

omit [Bracket B] in
theorem offsetToPointer_inj (h : d.offsetToPointer o = d.offsetToPointer o') : o = o' :=
  Offset.ext (Nat.add_left_cancel h)

/-- The offsets of the live pointers into the region. -/
def liveIn (d : Data B) (live : Finset ℕ) : Set (Offset B) :=
  {o | ∃ p ∈ live, d.checkedPointerToOffset p = some o}

variable {live : Finset ℕ}

theorem mem_liveIn : o ∈ d.liveIn live ↔ d.offsetToPointer o ∈ live ∧ Inside o := by
  simp only [liveIn, Set.mem_ofPred_eq, checked_eq_some_iff]
  constructor
  · rintro ⟨p, hp, rfl, ho⟩
    exact ⟨hp, ho⟩
  · rintro ⟨hp, ho⟩
    exact ⟨_, hp, rfl, ho⟩

theorem liveIn_insert (ho : Inside o) :
    d.liveIn (insert (d.offsetToPointer o) live) = insert o (d.liveIn live) := by
  ext o'
  simp only [mem_liveIn, Finset.mem_insert, Set.mem_insert_iff]
  constructor
  · rintro ⟨he | hp, ho'⟩
    · exact .inl (offsetToPointer_inj he)
    · exact .inr ⟨hp, ho'⟩
  · rintro (rfl | ⟨hp, ho'⟩)
    · exact ⟨.inl rfl, ho⟩
    · exact ⟨.inr hp, ho'⟩

theorem liveIn_insert_of_notMem (hp : p < d.start ∨ d.start + reservationSize ≤ p) :
    d.liveIn (insert p live) = d.liveIn live := by
  ext o'
  simp only [mem_liveIn, Finset.mem_insert]
  refine and_congr_left fun ho' => or_iff_right ?_
  rintro rfl
  have := offsetToPointer_mem (d := d) ho'
  omega

theorem liveIn_erase : d.liveIn (live.erase (d.offsetToPointer o)) = d.liveIn live \ {o} := by
  ext o'
  simp only [mem_liveIn, Finset.mem_erase, Set.mem_sdiff, Set.mem_singleton_iff]
  constructor
  · rintro ⟨⟨hne, hp⟩, ho'⟩
    exact ⟨⟨hp, ho'⟩, fun he => hne (he ▸ rfl)⟩
  · rintro ⟨⟨hp, ho'⟩, hne⟩
    exact ⟨⟨fun he => hne (offsetToPointer_inj he), hp⟩, ho'⟩

theorem liveIn_erase_of_notMem (hp : p < d.start ∨ d.start + reservationSize ≤ p) :
    d.liveIn (live.erase p) = d.liveIn live := by
  ext o'
  simp only [mem_liveIn, Finset.mem_erase]
  refine and_congr_left fun ho' => and_iff_right ?_
  rintro rfl
  have := offsetToPointer_mem (d := d) ho'
  omega

end Data

/-! ### Blocks of one heap -/

section Blocks

variable {T B : Type} [Bracket B] {cfg : Config} {h : Heap T B} {O : Set (Offset B)}
  {a : Ledger T B} {o p : Offset B} {n k : ℕ}

/-- Every slab that was handed out is inside the reservation. -/
def Heap.Fits (h : Heap T B) : Prop :=
  (h.bumpIndex - 1) * sizeSlab B ≤ reservationSize

/-- The class size of the slab an offset points into. -/
def Heap.blockSize (h : Heap T B) (o : Offset B) : Option ℕ :=
  o.intoIndex.map fun i => size (h.sizeClass i)

/-- `n` bytes from `p` on lie in one slab of the region. -/
def Data.InSlab (d : Data B) (p n : ℕ) : Prop :=
  ∃ k, d.start + k * sizeSlab B ≤ p ∧ p + n ≤ d.start + (k + 1) * sizeSlab B ∧
    (k + 1) * sizeSlab B ≤ reservationSize

theorem Data.InSlab.bounds {d : Data B} {x : ℕ} (hslab : d.InSlab x n) :
    d.start ≤ x ∧ x + n ≤ d.start + reservationSize := by
  obtain ⟨k, hlo, hhi, hend⟩ := hslab
  omega

variable [LawfulBracket B]

namespace Tracks

/-- What is known of the block at a live offset. -/
theorem block (tr : Tracks cfg h O a) (ho : o ∈ O) : ∃ (i : Index B) (b : Bit),
    o = Offset.fromBlock (h.sizeClass i) i b ∧ h.blockSize o = some (size (h.sizeClass i)) ∧
      0 < size (h.sizeClass i) ∧ i.value < h.bumpIndex ∧
      b.toNat * size (h.sizeClass i) + size (h.sizeClass i) ≤ sizeSlab B := by
  obtain ⟨i, b, hb, he, hidx⟩ := tr.exists_block ho
  obtain ⟨hbusy, hlt, -⟩ := tr.inv.busy_of_live hb
  have hend : (b.toNat + 1) * size (h.sizeClass i) ≤ sizeSlab B :=
    (Nat.mul_le_mul_right _ (hbusy.live_lt _ hb)).trans (LawfulBracket.fits _)
  refine ⟨i, b, he, by rw [Heap.blockSize, hidx]; rfl, LawfulBracket.size_pos _ hbusy.isZero, hlt, ?_⟩
  rwa [Nat.add_mul, Nat.one_mul] at hend

theorem inside (tr : Tracks cfg h O a) (hfit : h.Fits) (ho : o ∈ O) : Data.Inside o := by
  obtain ⟨i, b, rfl, -, hpos, hlt, hend⟩ := tr.block ho
  have hfirst : 1 * sizeSlab B ≤ i.value * sizeSlab B := Nat.mul_le_mul_right _ i.pos
  have hlast : i.value * sizeSlab B ≤ (h.bumpIndex - 1) * sizeSlab B :=
    Nat.mul_le_mul_right _ (by omega)
  rw [Heap.Fits] at hfit
  rw [Data.Inside, Offset.fromBlock_value]
  omega

/-- A live block lies in one slab of the region. -/
theorem inSlab (tr : Tracks cfg h O a) (hfit : h.Fits) (ho : o ∈ O) {d : Data B}
    (hn : h.blockSize o = some n) : d.InSlab (d.offsetToPointer o) n := by
  have hptr := d.offsetToPointer_eq (o := o)
  obtain ⟨i, b, he, hsize, hpos, hlt, hend⟩ := tr.block ho
  rw [hsize] at hn
  obtain rfl := Option.some.inj hn
  have hi := i.pos
  have hsucc : i.value - 1 + 1 = i.value := Nat.sub_add_cancel hi
  have hsplit : i.value * sizeSlab B = (i.value - 1) * sizeSlab B + sizeSlab B := by
    rw [← Nat.succ_mul, Nat.succ_eq_add_one, hsucc]
  have hlast : i.value * sizeSlab B ≤ (h.bumpIndex - 1) * sizeSlab B :=
    Nat.mul_le_mul_right _ (by omega)
  have hvalue : o.value = i.value * sizeSlab B + b.toNat * size (h.sizeClass i) := by
    rw [he, Offset.fromBlock_value]
  rw [Heap.Fits] at hfit
  refine ⟨i.value - 1, ?_, ?_, ?_⟩
  · omega
  · rw [hsucc]
    omega
  · rw [hsucc]
    omega

/-- Two live blocks of one heap do not meet. -/
theorem blocks_disjoint (tr : Tracks cfg h O a) (ho : o ∈ O) (hp : p ∈ O) (hne : o ≠ p)
    (hn : h.blockSize o = some n) (hk : h.blockSize p = some k) :
    o.value + n ≤ p.value ∨ p.value + k ≤ o.value := by
  obtain ⟨i, b, rfl, hsize, -, -, hend⟩ := tr.block ho
  obtain ⟨j, b', rfl, hsize', -, -, hend'⟩ := tr.block hp
  obtain rfl := Option.some.inj (hsize.symm.trans hn)
  obtain rfl := Option.some.inj (hsize'.symm.trans hk)
  rw [Offset.fromBlock_value, Offset.fromBlock_value]
  rcases lt_trichotomy i.value j.value with hij | hij | hij
  · have := Nat.mul_le_mul_right (sizeSlab B) (Nat.succ_le_of_lt hij)
    rw [Nat.succ_mul] at this
    omega
  · obtain rfl := Index.ext hij
    rcases lt_trichotomy b.toNat b'.toNat with hb | hb | hb
    · have := Nat.mul_le_mul_right (size (h.sizeClass i)) (Nat.succ_le_of_lt hb)
      rw [Nat.succ_mul] at this
      omega
    · rw [Bit.toNat_inj hb] at hne
      exact absurd rfl hne
    · have := Nat.mul_le_mul_right (size (h.sizeClass i)) (Nat.succ_le_of_lt hb)
      rw [Nat.succ_mul] at this
      omega
  · have := Nat.mul_le_mul_right (sizeSlab B) (Nat.succ_le_of_lt hij)
    rw [Nat.succ_mul] at this
    omega

end Tracks

/-- The block an allocation returned has the size of its class. -/
theorem Heap.Allocated.blockSize {R : Type} [FromState B R] {t : T} {c : B} {m m' : Mem T B R}
    {a' : Ledger T B} (hal : Heap.Allocated cfg t c m O a o m' a') :
    m'.toHeap.blockSize o = some (size c) := by
  obtain ⟨i, b, rfl, hb, hclass, hlt, hin⟩ := hal.block
  have hbound := hal.tracks.inv.bound
  have hc : isZero c = false := hclass ▸ (hal.tracks.inv.busy_of_live hin).1.isZero
  rw [Heap.blockSize, Offset.intoIndex_fromBlock (by omega) hc hb]
  exact congrArg (fun c => some (size c)) hclass

end Blocks

/-! ### Running a program of one heap -/

theorem Small.new_eq_none_iff {size : ℕ} : Small.new size = none ↔ Small.sizeMax < size := by
  rw [Small.new]
  split
  · simp only [reduceCtorEq, false_iff]
    omega
  · simp only [true_iff]
    omega

namespace Alloc

variable {T α : Type} [FinEnum T] {cfg : Config} {s s' : Alloc T} {t : T} {x : α}

theorem onSmall_ok {p : Code T Small State α} (hx : s.onSmall p = .ok (x, s')) :
    ∃ m, p.exec Mem.handle s.smallMem = .ok (x, m) ∧ s' = s.withSmall m := by
  rw [onSmall] at hx
  split at hx
  · rename_i y m hexec
    obtain ⟨rfl, rfl⟩ := ok_inj hx
    exact ⟨m, hexec, rfl⟩
  · cases hx

theorem onLarge_ok {p : Code T Large State α} (hx : s.onLarge p = .ok (x, s')) :
    ∃ m, p.exec Mem.handle s.largeMem = .ok (x, m) ∧ s' = s.withLarge m := by
  rw [onLarge] at hx
  split at hx
  · rename_i y m hexec
    obtain ⟨rfl, rfl⟩ := ok_inj hx
    exact ⟨m, hexec, rfl⟩
  · cases hx

/-- Which heap an allocation was made from. -/
theorem allocateUntyped_cases {g : Regions} {size p : ℕ}
    (hx : s.allocateUntyped g cfg t size = .ok (p, s')) :
    (∃ c, Small.new size = some c ∧ s.onSmall (Heap.allocateBlock cfg t c) = .ok (none, s') ∧
      p = 0) ∨
    (∃ c o s₁, Small.new size = some c ∧
      s.onSmall (Heap.allocateBlock cfg t c) = .ok (some o, s₁) ∧
      p = g.small.offsetToPointer o ∧ s' = s₁.clearLog t) ∨
    (∃ c, Small.new size = none ∧ Large.new size = some c ∧
      s.onLarge (Heap.allocateBlock cfg t c) = .ok (none, s') ∧ p = 0) ∨
    (∃ c o, Small.new size = none ∧ Large.new size = some c ∧
      s.onLarge (Heap.allocateBlock cfg t c) = .ok (some o, s') ∧ p = g.large.offsetToPointer o) ∨
    (Small.new size = none ∧ Large.new size = none ∧ s.allocateHuge g cfg t size = .ok (p, s')) := by
  rw [allocateUntyped] at hx
  cases hnew : Small.new size with
  | some c =>
    simp only [hnew] at hx
    obtain ⟨⟨_ | o, s₁⟩, hal, hx⟩ := bind_eq_ok hx
    · obtain ⟨rfl, rfl⟩ := ok_inj hx
      exact .inl ⟨c, rfl, hal, rfl⟩
    · obtain ⟨rfl, rfl⟩ := ok_inj hx
      exact .inr (.inl ⟨c, o, s₁, rfl, hal, rfl, rfl⟩)
  | none =>
    simp only [hnew] at hx
    rw [allocateLarge] at hx
    cases hnew' : Large.new size with
    | some c =>
      simp only [hnew'] at hx
      obtain ⟨⟨_ | o, s₁⟩, hal, hx⟩ := bind_eq_ok hx
      · obtain ⟨rfl, rfl⟩ := ok_inj hx
        exact .inr (.inr (.inl ⟨c, rfl, rfl, hal, rfl⟩))
      · obtain ⟨rfl, rfl⟩ := ok_inj hx
        exact .inr (.inr (.inr (.inl ⟨c, o, rfl, rfl, hal, rfl⟩)))
    | none =>
      simp only [hnew'] at hx
      exact .inr (.inr (.inr (.inr ⟨rfl, rfl, hx⟩)))

/-- How an allocation from the huge heap got the place of its descriptor. -/
theorem allocateHuge_cases {g : Regions} {size p : ℕ}
    (hx : s.allocateHuge g cfg t size = .ok (p, s')) :
    0 < nextMultipleOf size sizePage ∧ ∃ h₁ safe offset h, s.huge.reuse t = (h₁, safe) ∧
      p = g.huge + offset ∧
      ((∃ place, safe = some place ∧
        h₁.allocate cfg.validate t (nextMultipleOf size sizePage) place true = .ok (offset, h) ∧
        s' = { s with huge := h }) ∨
      ∃ i b s₁ o, safe = none ∧
        { s with huge := h₁ }.onSmall (Heap.peek cfg t descriptorClass) = .ok (some (i, b), s₁) ∧
        s₁.huge.allocate cfg.validate t (nextMultipleOf size sizePage)
          (Offset.fromBlock descriptorClass i b) false = .ok (offset, h) ∧
        { s₁ with huge := h }.onSmall (Heap.pop cfg t descriptorClass i b) = .ok (o, s')) := by
  rw [Alloc.allocateHuge] at hx
  split at hx
  · cases hx
  rename_i hsize
  refine ⟨by omega, ?_⟩
  obtain ⟨h₁, safe, hreuse⟩ : ∃ h₁ safe, s.huge.reuse t = (h₁, safe) := ⟨_, _, rfl⟩
  rw [hreuse] at hx
  cases safe with
  | some place =>
    obtain ⟨⟨offset, h⟩, hal, hx⟩ := bind_eq_ok hx
    obtain ⟨rfl, rfl⟩ := ok_inj hx
    exact ⟨h₁, _, offset, h, hreuse, rfl, .inl ⟨place, rfl, hal, rfl⟩⟩
  | none =>
    obtain ⟨⟨_ | ⟨i, b⟩, s₁⟩, hpeek, hx⟩ := bind_eq_ok hx
    · cases hx
    obtain ⟨⟨offset, h⟩, hal, hx⟩ := bind_eq_ok hx
    obtain ⟨⟨o, s₂⟩, hpop, hx⟩ := bind_eq_ok hx
    obtain ⟨rfl, rfl⟩ := ok_inj hx
    exact ⟨h₁, _, offset, h, hreuse, rfl, .inr ⟨i, b, s₁, o, rfl, hpeek, hal, hpop⟩⟩

/-- Which heap a pointer went back to. -/
theorem freeUntyped_cases {g : Regions} {p : ℕ} (hx : s.freeUntyped g cfg t p = .ok s') :
    (∃ o s₁, g.small.checkedPointerToOffset p = some o ∧
      s.onSmall (Heap.free cfg t o) = .ok ((), s₁) ∧ s' = s₁.clearLog t) ∨
    (∃ o, g.small.checkedPointerToOffset p = none ∧ g.large.checkedPointerToOffset p = some o ∧
      s.onLarge (Heap.free cfg t o) = .ok ((), s')) ∨
    (g.small.checkedPointerToOffset p = none ∧ g.large.checkedPointerToOffset p = none ∧
      s.freeHugeUntyped g t p = .ok s') := by
  rw [Alloc.freeUntyped] at hx
  cases ho : g.small.checkedPointerToOffset p with
  | some o =>
    simp only [ho] at hx
    obtain ⟨r, hfree, hx⟩ := bind_eq_ok hx
    obtain rfl := Except.ok.inj hx
    exact .inl ⟨o, r.2, rfl, hfree, rfl⟩
  | none =>
    simp only [ho] at hx
    rw [Alloc.freeLargeUntyped] at hx
    cases ho' : g.large.checkedPointerToOffset p with
    | some o =>
      simp only [ho'] at hx
      obtain ⟨r, hfree, hx⟩ := bind_eq_ok hx
      obtain rfl := Except.ok.inj hx
      exact .inr (.inl ⟨o, rfl, rfl, hfree⟩)
    | none =>
      simp only [ho'] at hx
      exact .inr (.inr ⟨rfl, rfl, hx⟩)

/-- The record of a thread fits the heap it is about. -/
def RecordOk (cfg : Config) (s : Alloc T) (t : T) : Prop :=
  match s.log t with
  | none => True
  | some (.small r) => Cxlalloc.RecordOk cfg t s.small r
  | some (.large r) => Cxlalloc.RecordOk cfg t s.large r

theorem RecordOk.clearLog (hrec : ∀ u, s.RecordOk cfg u) : ∀ u, (s.clearLog t).RecordOk cfg u := by
  intro u
  by_cases hu : u = t
  · subst hu
    simp [Alloc.RecordOk, Alloc.clearLog]
  · have := hrec u
    simpa only [Alloc.RecordOk, Alloc.clearLog, update_of_ne hu] using this

omit [FinEnum T] in
theorem RecordOk.congr (hrec : s.RecordOk cfg t) (hlog : s'.log t = s.log t)
    (hsmall : s'.small.head (.unsized t) = s.small.head (.unsized t) ∧
      s'.small.len (.unsized t) = s.small.len (.unsized t))
    (hlarge : s'.large.head (.unsized t) = s.large.head (.unsized t) ∧
      s'.large.len (.unsized t) = s.large.len (.unsized t)) : s'.RecordOk cfg t := by
  unfold RecordOk at hrec ⊢
  rw [hlog]
  split
  · trivial
  · rename_i r hr
    rw [hr] at hrec
    exact Cxlalloc.RecordOk.congr hrec hsmall.1 hsmall.2
  · rename_i r hr
    rw [hr] at hrec
    exact Cxlalloc.RecordOk.congr hrec hlarge.1 hlarge.2

/-- Programs of the small heap keep all records right. -/
theorem RecordOk.withSmall {m : Mem T Small State}
    (hothers : ∀ u, u ≠ t → Mem.Kept u s.smallMem m) (hlogged : Logged cfg t s.smallMem m)
    (hrec : ∀ u, s.RecordOk cfg u) (u : T) : (s.withSmall m).RecordOk cfg u := by
  by_cases hu : u = t
  · subst hu
    rcases hlogged with ⟨hlog, hkept⟩ | ⟨r, hlog, hr⟩
    · exact (hrec u).congr hlog hkept ⟨rfl, rfl⟩
    · unfold RecordOk
      rw [show (s.withSmall m).log u = some (.small r) from hlog]
      exact hr
  · obtain ⟨hlog, hkept⟩ := hothers u hu
    exact (hrec u).congr hlog hkept ⟨rfl, rfl⟩

/-- Programs of the large heap keep all records right. -/
theorem RecordOk.withLarge {m : Mem T Large State}
    (hothers : ∀ u, u ≠ t → Mem.Kept u s.largeMem m) (hlogged : Logged cfg t s.largeMem m)
    (hrec : ∀ u, s.RecordOk cfg u) (u : T) : (s.withLarge m).RecordOk cfg u := by
  by_cases hu : u = t
  · subst hu
    rcases hlogged with ⟨hlog, hkept⟩ | ⟨r, hlog, hr⟩
    · exact (hrec u).congr hlog ⟨rfl, rfl⟩ hkept
    · unfold RecordOk
      rw [show (s.withLarge m).log u = some (.large r) from hlog]
      exact hr
  · obtain ⟨hlog, hkept⟩ := hothers u hu
    exact (hrec u).congr hlog ⟨rfl, rfl⟩ hkept

end Alloc

/-! ### The invariant -/

section Invariant

variable {T : Type} [FinEnum T] {g : Regions} {cfg : Config}

/-- The small blocks in use: those that callers hold, and those that hold descriptors. -/
def AllocSession.smallLive (g : Regions) (s : AllocSession T) : Set (Offset Small) :=
  g.small.liveIn s.live ∪ {o | ∃ t, o ∈ s.alloc.huge.list t}

/-- The pointer is the start of a live huge range. -/
def Alloc.HugeLive (g : Regions) (s : Alloc T) (p : ℕ) : Prop :=
  ∃ t, ∃ a ∈ s.huge.list t, (s.huge.desc a).state = .live ∧ p = g.huge + (s.huge.desc a).offset

/-- The invariant of the allocator. -/
structure AllocInv (g : Regions) (cfg : Config) (s : AllocSession T) (as : Ledger T Small)
    (al : Ledger T Large) : Prop where
  small : Tracks cfg s.alloc.small (s.smallLive g) as
  large : Tracks cfg s.alloc.large (g.large.liveIn s.live) al
  huge : HugeInv s.alloc.huge
  /-- No caller holds the block of a descriptor. -/
  hidden : ∀ t, ∀ o ∈ s.alloc.huge.list t, o ∉ g.small.liveIn s.live
  region : ∀ p ∈ s.live, (∃ o, g.small.checkedPointerToOffset p = some o) ∨
    (∃ o, g.large.checkedPointerToOffset p = some o) ∨ s.alloc.HugeLive g p
  reserved : s.alloc.Reserved
  /-- The recorded lengths of the unsized stacks are right. -/
  exact : cfg.batchBump < 2 ^ 32 → ∀ u, as.excess (.unsized u) = 0 ∧ al.excess (.unsized u) = 0
  records : ∀ t, s.alloc.RecordOk cfg t

namespace AllocInv

variable {s : AllocSession T} {as : Ledger T Small} {al : Ledger T Large} {t : T}

omit [FinEnum T] in
theorem zeroed {blank : Descriptor} :
    AllocInv g cfg (AllocSession.zeroed blank : AllocSession T) Ledger.zeroed Ledger.zeroed where
  small := by
    have hempty : (AllocSession.zeroed blank : AllocSession T).smallLive g = ∅ := by
      ext o
      simp [AllocSession.smallLive, AllocSession.zeroed, Alloc.zeroed, Huge.zeroed, Data.mem_liveIn]
    rw [hempty]
    exact Tracks.zeroed
  large := by
    have hempty : g.large.liveIn (AllocSession.zeroed blank : AllocSession T).live = ∅ := by
      ext o
      simp [AllocSession.zeroed, Data.mem_liveIn]
    rw [hempty]
    exact Tracks.zeroed
  huge := HugeInv.zeroed
  hidden t o ho := by simp [AllocSession.zeroed, Alloc.zeroed, Huge.zeroed] at ho
  region p hp := by simp [AllocSession.zeroed] at hp
  reserved := by
    constructor
    · show ((Index.min : Index Small).value - 1) * _ ≤ _
      decide
    · show ((Index.min : Index Large).value - 1) * _ ≤ _
      decide
  exact _ _ := ⟨rfl, rfl⟩
  records _ := trivial

omit [FinEnum T] in
theorem hugeLive_range (inv : AllocInv g cfg s as al) {p : ℕ} (hp : s.alloc.HugeLive g p) :
    g.huge ≤ p ∧ p < g.huge + reservationSize := by
  obtain ⟨t, a, ha, hlive, rfl⟩ := hp
  have ua : (s.alloc.huge.desc a).InUse := by simp [Descriptor.InUse, hlive]
  have hpos := inv.huge.pos t a ha ua
  have hmem : (s.alloc.huge.desc a).offset ∈ (s.alloc.huge.desc a).range :=
    Finset.mem_Ico.mpr ⟨le_rfl, by omega⟩
  have hlt := inv.huge.claimed_lt (inv.huge.claimed t a ha ua hmem)
  have hle := Nat.mul_le_mul_right sizeSlot inv.huge.slots.hint_le
  have hall : slotsLen * sizeSlot = reservationSize := by decide
  omega

/-! #### Allocation -/

variable {p : ℕ} {s' : Alloc T}

theorem allocateSmall (inv : AllocInv g cfg s as al) (hbatch : cfg.batchBump % 2 ^ 32 ≠ 0)
    {c : Small} {o : Offset Small} (hc : isZero c = false)
    (hx : s.alloc.onSmall (Heap.allocateBlock cfg t c) = .ok (some o, s')) (hres : s'.Reserved) :
    (∃ as', AllocInv g cfg ⟨s'.clearLog t, insert (g.small.offsetToPointer o) s.live⟩ as' al) ∧
      g.small.offsetToPointer o ∉ s.live ∧
      (s'.clearLog t).classUntyped g (g.small.offsetToPointer o) = some (size c) ∧
      g.small.InSlab (g.small.offsetToPointer o) (size c) := by
  obtain ⟨m, hexec, rfl⟩ := Alloc.onSmall_ok hx
  have hwp := Heap.wp_allocateBlock (t := t) (m := s.alloc.smallMem) inv.small hc hbatch
  obtain ⟨o', as', ho', hal⟩ := wp_ok hwp hexec
  obtain rfl := Option.some.inj ho'
  have hin : Data.Inside o := hal.tracks.inside hres.1 (Set.mem_insert o _)
  have hptr := g.small.offsetToPointer_mem hin
  have hlarge : g.small.offsetToPointer o < g.large.start := g.large_start ▸ hptr.2
  have hold : o ∉ g.small.liveIn s.live := fun h => hal.fresh (.inl h)
  refine ⟨⟨as', ?_⟩, fun hp => hold (Data.mem_liveIn.mpr ⟨hp, hin⟩), ?_, ?_⟩
  · constructor
    case small =>
      show Tracks cfg m.toHeap (g.small.liveIn (insert _ s.live) ∪ _) as'
      rw [Data.liveIn_insert hin, Set.insert_union]
      exact hal.tracks
    case large =>
      show Tracks cfg s.alloc.large (g.large.liveIn (insert _ s.live)) al
      rw [Data.liveIn_insert_of_notMem (.inl hlarge)]
      exact inv.large
    case huge => exact inv.huge
    case hidden =>
      intro u o' ho'
      show o' ∉ g.small.liveIn (insert _ s.live)
      rw [Data.liveIn_insert hin]
      rintro (rfl | h)
      · exact hal.fresh (.inr ⟨u, ho'⟩)
      · exact inv.hidden u o' ho' h
    case region =>
      intro p hp
      rcases Finset.mem_insert.mp hp with rfl | hp
      · exact .inl ⟨o, Data.checked_eq_some_iff.mpr ⟨rfl, hin⟩⟩
      · exact inv.region p hp
    case reserved => exact hres
    case exact => exact fun hsmall u =>
        ⟨hal.keeps hsmall _ (inv.exact hsmall u).1, (inv.exact hsmall u).2⟩
    case records =>
      exact Alloc.RecordOk.clearLog
        (Alloc.RecordOk.withSmall
          (fun _ => Mem.kept_of_by (Heap.by_allocateBlock.only trivial) hexec) hal.logged
          inv.records)
  · simp only [Alloc.classUntyped, Data.checked_eq_some_iff.mpr ⟨rfl, hin⟩]
    exact hal.blockSize
  · exact hal.tracks.inSlab hres.1 (Set.mem_insert o _) hal.blockSize

theorem allocateLarge (inv : AllocInv g cfg s as al) (hbatch : cfg.batchBump % 2 ^ 32 ≠ 0)
    {c : Large} {o : Offset Large} (hc : isZero c = false)
    (hx : s.alloc.onLarge (Heap.allocateBlock cfg t c) = .ok (some o, s')) (hres : s'.Reserved) :
    (∃ al', AllocInv g cfg ⟨s', insert (g.large.offsetToPointer o) s.live⟩ as al') ∧
      g.large.offsetToPointer o ∉ s.live ∧
      s'.classUntyped g (g.large.offsetToPointer o) = some (size c) ∧
      g.large.InSlab (g.large.offsetToPointer o) (size c) := by
  obtain ⟨m, hexec, rfl⟩ := Alloc.onLarge_ok hx
  have hwp := Heap.wp_allocateBlock (t := t) (m := s.alloc.largeMem) inv.large hc hbatch
  obtain ⟨o', al', ho', hal⟩ := wp_ok hwp hexec
  obtain rfl := Option.some.inj ho'
  have hin : Data.Inside o := hal.tracks.inside hres.2 (Set.mem_insert o _)
  have hptr := g.large.offsetToPointer_mem hin
  have hsmall : g.small.start + reservationSize ≤ g.large.offsetToPointer o :=
    g.large_start ▸ hptr.1
  refine ⟨⟨al', ?_⟩, fun hp => hal.fresh (Data.mem_liveIn.mpr ⟨hp, hin⟩), ?_, ?_⟩
  · constructor
    case small =>
      show Tracks cfg s.alloc.small (g.small.liveIn (insert _ s.live) ∪ _) as
      rw [Data.liveIn_insert_of_notMem (.inr hsmall)]
      exact inv.small
    case large =>
      show Tracks cfg m.toHeap (g.large.liveIn (insert _ s.live)) al'
      rw [Data.liveIn_insert hin]
      exact hal.tracks
    case huge => exact inv.huge
    case hidden =>
      intro u o' ho'
      show o' ∉ g.small.liveIn (insert _ s.live)
      rw [Data.liveIn_insert_of_notMem (.inr hsmall)]
      exact inv.hidden u o' ho'
    case region =>
      intro p hp
      rcases Finset.mem_insert.mp hp with rfl | hp
      · exact .inr (.inl ⟨o, Data.checked_eq_some_iff.mpr ⟨rfl, hin⟩⟩)
      · exact inv.region p hp
    case reserved => exact hres
    case exact => exact fun hsmall u =>
        ⟨(inv.exact hsmall u).1, hal.keeps hsmall _ (inv.exact hsmall u).2⟩
    case records =>
      exact Alloc.RecordOk.withLarge
        (fun _ => Mem.kept_of_by (Heap.by_allocateBlock.only trivial) hexec) hal.logged
        inv.records
  · simp only [Alloc.classUntyped, Data.checked_eq_some_iff.mpr ⟨rfl, hin⟩,
      Data.checked_eq_none (d := g.small) (.inr hsmall)]
    exact hal.blockSize
  · exact hal.tracks.inSlab hres.2 (Set.mem_insert o _) hal.blockSize

omit [FinEnum T] in
/-- A huge allocation, given what it did to the small heap: `m` is what it left there. -/
theorem allocateHuge_placed (inv : AllocInv g cfg s as al) {h : Huge T (Offset Small)}
    {m : Mem T Small State} {as' : Ledger T Small} {offset : ℕ}
    (hplaced : HugeInv.Placed s.alloc.huge t offset h)
    (htracks : Tracks cfg m.toHeap (g.small.liveIn s.live ∪ {o | ∃ t, o ∈ h.list t}) as')
    (hhidden : ∀ u, ∀ o ∈ h.list u, o ∉ g.small.liveIn s.live)
    (hkeeps : cfg.batchBump < 2 ^ 32 → ∀ u, as.Keeps as' (.unsized u))
    (hrec : ∀ u, (s.alloc.withSmall m).RecordOk cfg u)
    (hs' : s' = { s.alloc.withSmall m with huge := h }) (hres : s'.Reserved) :
    AllocInv g cfg ⟨s', insert (g.huge + offset) s.live⟩ as' al := by
  subst hs'
  have hlarge := g.large_start
  have hhuge := g.huge_start
  have hfar : g.small.start + reservationSize ≤ g.huge + offset := by omega
  have hfar' : g.large.start + reservationSize ≤ g.huge + offset := by omega
  constructor
  case small =>
    show Tracks cfg m.toHeap (g.small.liveIn (insert _ s.live) ∪ _) as'
    rw [Data.liveIn_insert_of_notMem (.inr hfar)]
    exact htracks
  case large =>
    show Tracks cfg s.alloc.large (g.large.liveIn (insert _ s.live)) al
    rw [Data.liveIn_insert_of_notMem (.inr hfar')]
    exact inv.large
  case huge => exact hplaced.inv
  case hidden =>
    intro u o ho
    show o ∉ g.small.liveIn (insert _ s.live)
    rw [Data.liveIn_insert_of_notMem (.inr hfar)]
    exact hhidden u o ho
  case region =>
    intro p hp
    rcases Finset.mem_insert.mp hp with rfl | hp
    · obtain ⟨a, ha, hlive, rfl⟩ := hplaced.new
      exact .inr (.inr ⟨t, a, ha, hlive, rfl⟩)
    · rcases inv.region p hp with h | h | ⟨u, a, ha, hlive, rfl⟩
      · exact .inl h
      · exact .inr (.inl h)
      · obtain ⟨hmem, hdesc⟩ := hplaced.old u a ha hlive
        exact .inr (.inr ⟨u, a, hmem, hdesc ▸ hlive, by rw [← hdesc]⟩)
  case reserved => exact hres
  case exact =>
    exact fun hsmall u => ⟨hkeeps hsmall u (inv.exact hsmall u).1, (inv.exact hsmall u).2⟩
  case records => exact hrec

/-- A huge allocation whose descriptor goes to a new block. -/
theorem allocateHuge_new (inv : AllocInv g cfg s as al) (hbatch : cfg.batchBump % 2 ^ 32 ≠ 0)
    {h₁ h : Huge T (Offset Small)} {s₁ : Alloc T} {i : Index Small} {b : Bit} {size offset : ℕ}
    {o : Offset Small} (inv₁ : HugeInv h₁) (htrim : s.alloc.huge.Trimmed h₁) (hsize : 0 < size)
    (hpeek : Alloc.onSmall { s.alloc with huge := h₁ } (Heap.peek cfg t descriptorClass) =
      .ok (some (i, b), s₁))
    (hal : s₁.huge.allocate cfg.validate t size (Offset.fromBlock descriptorClass i b) false =
      .ok (offset, h))
    (hpop : Alloc.onSmall { s₁ with huge := h } (Heap.pop cfg t descriptorClass i b) = .ok (o, s'))
    (hres : s'.Reserved) : ∃ as', AllocInv g cfg ⟨s', insert (g.huge + offset) s.live⟩ as' al := by
  have hc : isZero descriptorClass = false := by decide
  obtain ⟨m₁, hexec₁, rfl⟩ := Alloc.onSmall_ok hpeek
  have hwp₁ := Heap.wp_peek (t := t) (m := s.alloc.smallMem) inv.small.inv hc hbatch
    (Q := fun r m' => ∃ i a', r = some (i, (m'.bits i).peekUnchecked) ∧
      Heap.Ready cfg t descriptorClass _ as i m' a') fun i m' a' h => ⟨i, a', rfl, h⟩
  obtain ⟨i', as₁, hr, ready⟩ := wp_ok hwp₁ hexec₁
  obtain ⟨rfl, rfl⟩ := Prod.mk.inj (Option.some.inj hr)
  obtain ⟨m₂, hexec₂, rfl⟩ := Alloc.onSmall_ok hpop
  have hwp₂ := Heap.wp_pop (E := fun _ => True) (m := m₁) ready.inv ready.top
    (Q := fun _ m' => ∃ a', Heap.Popped cfg t m₁ as₁ i (m₁.bits i).peekUnchecked.toNat m' a')
    fun m' a' h => ⟨a', h⟩
  obtain ⟨as₂, popped⟩ := wp_ok hwp₂ hexec₂
  have halloc := Heap.allocated inv.small hc ready popped
  generalize Offset.fromBlock descriptorClass i (m₁.bits i).peekUnchecked = place at hal halloc
  have hfresh : ∀ u, place ∉ h₁.list u := fun u hu =>
    halloc.fresh (.inr ⟨u, htrim.list ▸ hu⟩)
  have hlist : h.list = update s.alloc.huge.list t (place :: s.alloc.huge.list t) :=
    (inv₁.allocate_list hsize hal).trans (by rw [if_neg Bool.false_ne_true, htrim.list])
  have hplaces : {x | ∃ u, x ∈ h.list u} = insert place {x | ∃ u, x ∈ s.alloc.huge.list u} := by
    ext x
    simp only [hlist, Set.mem_ofPred_eq, Set.mem_insert_iff]
    constructor
    · rintro ⟨u, hx⟩
      by_cases hu : u = t
      · subst hu
        rw [update_self, List.mem_cons] at hx
        exact hx.imp id fun hx => ⟨u, hx⟩
      · rw [update_of_ne hu] at hx
        exact .inr ⟨u, hx⟩
    · rintro (rfl | ⟨u, hx⟩)
      · exact ⟨t, by rw [update_self]; exact List.mem_cons_self⟩
      · by_cases hu : u = t
        · subst hu
          exact ⟨u, by rw [update_self]; exact List.mem_cons_of_mem _ hx⟩
        · exact ⟨u, by rwa [update_of_ne hu]⟩
  refine ⟨as₂, inv.allocateHuge_placed (m := m₂)
    (.of_trimmed htrim (inv₁.allocate hsize (HugeInv.vacant_new hfresh) hal)) ?_ ?_ ?_ ?_ rfl hres⟩
  · rw [hplaces, Set.union_insert]
    exact halloc.tracks
  · intro u x hx hlive
    have hx : x ∈ {x | ∃ u, x ∈ h.list u} := ⟨u, hx⟩
    rw [hplaces] at hx
    rcases hx with rfl | ⟨u, hx⟩
    · exact halloc.fresh (.inl hlive)
    · exact inv.hidden u x hx hlive
  · exact fun hsmall u => halloc.keeps hsmall _
  · exact Alloc.RecordOk.withSmall (fun u hu =>
      (Mem.kept_of_by (Heap.by_peek.only trivial) hexec₁ hu).trans
      (Mem.kept_of_by ((Heap.by_pop (r := {}) trivial fun _ => trivial).only trivial) hexec₂ hu))
      halloc.logged inv.records

theorem allocateHuge (inv : AllocInv g cfg s as al) (hbatch : cfg.batchBump % 2 ^ 32 ≠ 0)
    {size : ℕ} (hx : s.alloc.allocateHuge g cfg t size = .ok (p, s')) (hres : s'.Reserved) :
    ∃ as', AllocInv g cfg ⟨s', insert p s.live⟩ as' al := by
  obtain ⟨h₁, safe, hreuse, inv₁, htrim, hsafe⟩ := inv.huge.reuse t
  obtain ⟨hpos, h₂, safe₂, offset, h, hreuse', rfl, hcase⟩ := Alloc.allocateHuge_cases hx
  obtain ⟨rfl, rfl⟩ := Prod.mk.inj (hreuse.symm.trans hreuse')
  rcases hcase with ⟨place, rfl, hal, rfl⟩ | ⟨i, b, s₁, o, rfl, hpeek, hal, hpop⟩
  · obtain ⟨pre, post, hl, hs, hpre⟩ := hsafe place rfl
    have hlist : h.list = s.alloc.huge.list :=
      (inv₁.allocate_list hpos hal).trans (by rw [if_pos rfl, htrim.list])
    refine ⟨as, inv.allocateHuge_placed (m := s.alloc.smallMem)
      (.of_trimmed htrim (inv₁.allocate hpos (inv₁.vacant_reused hl hs hpre) hal)) ?_ ?_ (fun _ _ h => h)
      inv.records rfl hres⟩
    · rw [hlist]
      exact inv.small
    · rw [hlist]
      exact inv.hidden
  · exact inv.allocateHuge_new hbatch inv₁ htrim hpos hpeek hal hpop hres

/-! #### Free -/

theorem freeSmall (inv : AllocInv g cfg s as al) (hpos : 1 ≤ cfg.batchGlobal)
    (hle : cfg.batchGlobal ≤ cfg.cacheLocal + 1) (hp : p ∈ s.live) {o : Offset Small}
    (ho : g.small.checkedPointerToOffset p = some o)
    (hx : s.alloc.onSmall (Heap.free cfg t o) = .ok ((), s')) (hres : s'.Reserved) :
    ∃ as', AllocInv g cfg ⟨s'.clearLog t, s.live.erase p⟩ as' al := by
  have hlive : o ∈ g.small.liveIn s.live := ⟨p, hp, ho⟩
  obtain ⟨rfl, hin⟩ := Data.checked_eq_some_iff.mp ho
  obtain ⟨m, hexec, rfl⟩ := Alloc.onSmall_ok hx
  have hwp := Heap.wp_free_live (t := t) (m := s.alloc.smallMem) inv.small (.inl hlive) hpos hle
  obtain ⟨as', hrel⟩ := wp_ok hwp hexec
  have hptr := g.small.offsetToPointer_mem hin
  have hlarge : g.small.offsetToPointer o < g.large.start := g.large_start ▸ hptr.2
  refine ⟨as', ?_⟩
  constructor
  case small =>
    have hset : g.small.liveIn (s.live.erase (g.small.offsetToPointer o)) ∪
        {x | ∃ u, x ∈ s.alloc.huge.list u} = s.smallLive g \ {o} := by
      rw [Data.liveIn_erase, AllocSession.smallLive, Set.union_sdiff_distrib,
        Set.sdiff_singleton_eq_self (s := {x | _})]
      exact fun ⟨u, hu⟩ => inv.hidden u o hu hlive
    show Tracks cfg m.toHeap (g.small.liveIn (s.live.erase _) ∪ {x | ∃ u, x ∈ s.alloc.huge.list u}) as'
    rw [hset]
    exact hrel.tracks
  case large =>
    show Tracks cfg s.alloc.large (g.large.liveIn (s.live.erase _)) al
    rw [Data.liveIn_erase_of_notMem (.inl hlarge)]
    exact inv.large
  case huge => exact inv.huge
  case hidden =>
    intro u x hx
    show x ∉ g.small.liveIn (s.live.erase _)
    rw [Data.liveIn_erase]
    exact fun h => inv.hidden u x hx h.1
  case region => exact fun q hq => inv.region q (Finset.mem_of_mem_erase hq)
  case reserved => exact hres
  case exact =>
    exact fun hsmall u => ⟨hrel.keeps _ (.inr ⟨u, rfl⟩) (inv.exact hsmall u).1,
      (inv.exact hsmall u).2⟩
  case records =>
    exact Alloc.RecordOk.clearLog
      (Alloc.RecordOk.withSmall (fun _ => Mem.kept_of_by (Heap.by_free.only trivial) hexec) hrel.logged
        inv.records)

theorem freeLarge (inv : AllocInv g cfg s as al) (hpos : 1 ≤ cfg.batchGlobal)
    (hle : cfg.batchGlobal ≤ cfg.cacheLocal + 1) (hp : p ∈ s.live) {o : Offset Large}
    (ho : g.large.checkedPointerToOffset p = some o)
    (hx : s.alloc.onLarge (Heap.free cfg t o) = .ok ((), s')) (hres : s'.Reserved) :
    ∃ al', AllocInv g cfg ⟨s', s.live.erase p⟩ as al' := by
  have hlive : o ∈ g.large.liveIn s.live := ⟨p, hp, ho⟩
  obtain ⟨rfl, hin⟩ := Data.checked_eq_some_iff.mp ho
  obtain ⟨m, hexec, rfl⟩ := Alloc.onLarge_ok hx
  have hwp := Heap.wp_free_live (t := t) (m := s.alloc.largeMem) inv.large hlive hpos hle
  obtain ⟨al', hrel⟩ := wp_ok hwp hexec
  have hptr := g.large.offsetToPointer_mem hin
  have hsmall : g.small.start + reservationSize ≤ g.large.offsetToPointer o :=
    g.large_start ▸ hptr.1
  refine ⟨al', ?_⟩
  constructor
  case small =>
    show Tracks cfg s.alloc.small (g.small.liveIn (s.live.erase _) ∪ _) as
    rw [Data.liveIn_erase_of_notMem (.inr hsmall)]
    exact inv.small
  case large =>
    show Tracks cfg m.toHeap (g.large.liveIn (s.live.erase _)) al'
    rw [Data.liveIn_erase]
    exact hrel.tracks
  case huge => exact inv.huge
  case hidden =>
    intro u x hx
    show x ∉ g.small.liveIn (s.live.erase _)
    rw [Data.liveIn_erase_of_notMem (.inr hsmall)]
    exact inv.hidden u x hx
  case region => exact fun q hq => inv.region q (Finset.mem_of_mem_erase hq)
  case reserved => exact hres
  case exact =>
    exact fun hsmall u => ⟨(inv.exact hsmall u).1,
      hrel.keeps _ (.inr ⟨u, rfl⟩) (inv.exact hsmall u).2⟩
  case records =>
    exact Alloc.RecordOk.withLarge (fun _ => Mem.kept_of_by (Heap.by_free.only trivial) hexec) hrel.logged
      inv.records

theorem freeHuge (inv : AllocInv g cfg s as al) (hp : s.alloc.HugeLive g p)
    (hx : s.alloc.freeHugeUntyped g t p = .ok s') : AllocInv g cfg ⟨s', s.live.erase p⟩ as al := by
  obtain ⟨hlo, hhi⟩ := inv.hugeLive_range hp
  obtain ⟨u, a, ha, hlive, rfl⟩ := hp
  have hoff : g.hugeOffset (g.huge + (s.alloc.huge.desc a).offset) =
      some (s.alloc.huge.desc a).offset := by
    rw [Regions.hugeOffset, if_pos ⟨hlo, by omega⟩, Nat.add_sub_cancel_left]
  simp only [Alloc.freeHugeUntyped, hoff] at hx
  obtain ⟨h, hfree, hx⟩ := bind_eq_ok hx
  obtain rfl := Except.ok.inj hx
  obtain ⟨hinv, hlist, hframe⟩ := inv.huge.free_live ha hlive hfree
  have hlarge := g.large_start
  have hhuge := g.huge_start
  have hfar : g.small.start + reservationSize ≤ g.huge + (s.alloc.huge.desc a).offset := by
    omega
  have hfar' : g.large.start + reservationSize ≤ g.huge + (s.alloc.huge.desc a).offset := by
    omega
  constructor
  case small =>
    show Tracks cfg s.alloc.small (g.small.liveIn (s.live.erase _) ∪ {x | ∃ u, x ∈ h.list u}) as
    rw [Data.liveIn_erase_of_notMem (.inr hfar), hlist]
    exact inv.small
  case large =>
    show Tracks cfg s.alloc.large (g.large.liveIn (s.live.erase _)) al
    rw [Data.liveIn_erase_of_notMem (.inr hfar')]
    exact inv.large
  case huge => exact hinv
  case hidden =>
    intro u x hx
    show x ∉ g.small.liveIn (s.live.erase _)
    rw [Data.liveIn_erase_of_notMem (.inr hfar)]
    exact inv.hidden u x (hlist ▸ hx)
  case region =>
    intro q hq
    obtain ⟨hne, hq⟩ := Finset.mem_erase.mp hq
    rcases inv.region q hq with h | h | ⟨u', b, hb, hlive', rfl⟩
    · exact .inl h
    · exact .inr (.inl h)
    · have hba : b ≠ a := fun heq => hne (heq ▸ rfl)
      exact .inr (.inr ⟨u', b, hlist ▸ hb, by rw [hframe b hba, hlive'], by rw [hframe b hba]⟩)
  case reserved => exact inv.reserved
  case exact => exact inv.exact
  case records => exact inv.records

/-! #### Live blocks -/

omit [FinEnum T] in
/-- What a live pointer points to, and between which bounds. -/
theorem block (inv : AllocInv g cfg s as al) (hp : p ∈ s.live) :
    ∃ n, s.alloc.classUntyped g p = some n ∧
      ((∃ o, g.small.checkedPointerToOffset p = some o ∧ s.alloc.small.blockSize o = some n ∧
        g.small.InSlab p n) ∨
      (∃ o, g.large.checkedPointerToOffset p = some o ∧ s.alloc.large.blockSize o = some n ∧
        g.large.InSlab p n) ∨
      ∃ t, ∃ a ∈ s.alloc.huge.list t, (s.alloc.huge.desc a).state = .live ∧
        p = g.huge + (s.alloc.huge.desc a).offset ∧ n = (s.alloc.huge.desc a).size) := by
  have hlarge := g.large_start
  have hhuge := g.huge_start
  rcases inv.region p hp with ⟨o, ho⟩ | ⟨o, ho⟩ | hlive
  · have hmem : o ∈ s.smallLive g := .inl ⟨p, hp, ho⟩
    obtain ⟨i, b, -, hsize, -⟩ := inv.small.block hmem
    obtain ⟨rfl, hin⟩ := Data.checked_eq_some_iff.mp ho
    refine ⟨_, ?_, .inl ⟨o, ho, hsize, inv.small.inSlab inv.reserved.1 hmem hsize⟩⟩
    simp only [Alloc.classUntyped, ho]
    exact hsize
  · have hmem : o ∈ g.large.liveIn s.live := ⟨p, hp, ho⟩
    obtain ⟨i, b, -, hsize, -⟩ := inv.large.block hmem
    obtain ⟨rfl, hin⟩ := Data.checked_eq_some_iff.mp ho
    have hptr := g.large.offsetToPointer_mem hin
    have hnone := Data.checked_eq_none (d := g.small) (p := g.large.offsetToPointer o)
      (.inr (hlarge ▸ hptr.1))
    refine ⟨_, ?_, .inr (.inl ⟨o, ho, hsize, inv.large.inSlab inv.reserved.2 hmem hsize⟩)⟩
    simp only [Alloc.classUntyped, hnone, ho]
    exact hsize
  · obtain ⟨hlo, hhi⟩ := inv.hugeLive_range hlive
    obtain ⟨t, a, ha, hs, rfl⟩ := hlive
    have ua : (s.alloc.huge.desc a).InUse := by simp [Descriptor.InUse, hs]
    have hpos := inv.huge.pos t a ha ua
    have hfind := inv.huge.find_eq ha ua (x := (s.alloc.huge.desc a).offset)
      (Finset.mem_Ico.mpr ⟨le_rfl, by omega⟩)
    have hnone := Data.checked_eq_none (d := g.small)
      (p := g.huge + (s.alloc.huge.desc a).offset) (.inr (by omega))
    have hnone' := Data.checked_eq_none (d := g.large)
      (p := g.huge + (s.alloc.huge.desc a).offset) (.inr (by omega))
    have hoff : g.hugeOffset (g.huge + (s.alloc.huge.desc a).offset) =
        some (s.alloc.huge.desc a).offset := by
      rw [Regions.hugeOffset, if_pos ⟨hlo, by omega⟩, Nat.add_sub_cancel_left]
    refine ⟨_, ?_, .inr (.inr ⟨t, a, ha, hs, rfl, rfl⟩)⟩
    simp only [Alloc.classUntyped, hnone, hnone', hoff, hfind, Option.map_some]

omit [FinEnum T] in
/-- **Live blocks are disjoint.** -/
theorem blocks_disjoint (inv : AllocInv g cfg s as al) {q n k : ℕ} (hp : p ∈ s.live)
    (hq : q ∈ s.live) (hne : p ≠ q) (hn : s.alloc.classUntyped g p = some n)
    (hk : s.alloc.classUntyped g q = some k) : p + n ≤ q ∨ q + k ≤ p := by
  have hlarge := g.large_start
  have hhuge := g.huge_start
  obtain ⟨n', hn', hpcase⟩ := inv.block hp
  obtain ⟨k', hk', hqcase⟩ := inv.block hq
  obtain rfl := Option.some.inj (hn'.symm.trans hn)
  obtain rfl := Option.some.inj (hk'.symm.trans hk)
  rcases hpcase with ⟨o, ho, hsize, hslab⟩ | ⟨o, ho, hsize, hslab⟩ | ⟨t, a, ha, hs, rfl, rfl⟩ <;>
    rcases hqcase with ⟨o', ho', hsize', hslab'⟩ | ⟨o', ho', hsize', hslab'⟩ |
      ⟨t', a', ha', hs', rfl, rfl⟩
  · obtain ⟨rfl, -⟩ := Data.checked_eq_some_iff.mp ho
    obtain ⟨rfl, -⟩ := Data.checked_eq_some_iff.mp ho'
    have hne' : o ≠ o' := fun h => hne (h ▸ rfl)
    have := inv.small.blocks_disjoint (.inl ⟨_, hp, ho⟩) (.inl ⟨_, hq, ho'⟩) hne' hsize hsize'
    simp only [Data.offsetToPointer]
    omega
  · have := hslab.bounds
    have := hslab'.bounds
    omega
  · have := hslab.bounds
    omega
  · have := hslab.bounds
    have := hslab'.bounds
    omega
  · obtain ⟨rfl, -⟩ := Data.checked_eq_some_iff.mp ho
    obtain ⟨rfl, -⟩ := Data.checked_eq_some_iff.mp ho'
    have hne' : o ≠ o' := fun h => hne (h ▸ rfl)
    have := inv.large.blocks_disjoint ⟨_, hp, ho⟩ ⟨_, hq, ho'⟩ hne' hsize hsize'
    simp only [Data.offsetToPointer]
    omega
  · have := hslab.bounds
    omega
  · have := hslab'.bounds
    omega
  · have := hslab'.bounds
    omega
  · have ua : (s.alloc.huge.desc a).InUse := by simp [Descriptor.InUse, hs]
    have ua' : (s.alloc.huge.desc a').InUse := by simp [Descriptor.InUse, hs']
    have hne' : a ≠ a' := fun h => hne (h ▸ rfl)
    have hd := inv.huge.inUse_disjoint ha ha' hne' ua ua'
    have hpos := inv.huge.pos t a ha ua
    have hpos' := inv.huge.pos t' a' ha' ua'
    by_contra hover
    rw [Finset.disjoint_left] at hd
    rcases le_total (s.alloc.huge.desc a).offset (s.alloc.huge.desc a').offset with hle | hle
    · have hin : (s.alloc.huge.desc a').offset ∈ (s.alloc.huge.desc a).range :=
        Finset.mem_Ico.mpr ⟨hle, by omega⟩
      exact hd hin (Finset.mem_Ico.mpr ⟨le_rfl, by omega⟩)
    · have hin : (s.alloc.huge.desc a).offset ∈ (s.alloc.huge.desc a').range :=
        Finset.mem_Ico.mpr ⟨hle, by omega⟩
      exact hd (Finset.mem_Ico.mpr ⟨le_rfl, by omega⟩) hin

/-! #### The calls -/

omit [FinEnum T] in
theorem pointer_ne_zero (inv : AllocInv g cfg s as al) (hp : p ∈ s.live) : p ≠ 0 := by
  have hlarge := g.large_start
  have hhuge := g.huge_start
  have hpos := g.small.base_pos
  have hstart : g.small.start = g.small.base + sizeSlab Small := rfl
  obtain ⟨n, -, ⟨o, -, -, hslab⟩ | ⟨o, -, -, hslab⟩ | ⟨t, a, -, -, rfl, -⟩⟩ := inv.block hp
  · have := hslab.bounds
    omega
  · have := hslab.bounds
    omega
  · omega

/-- An allocation returns null and changes nothing, or it adds a block to the live ones,
in the region of the bracket that has a class for it. -/
theorem allocateUntyped (inv : AllocInv g cfg s as al) (hbatch : cfg.batchBump % 2 ^ 32 ≠ 0)
    {size : ℕ} (hx : s.alloc.allocateUntyped g cfg t size = .ok (p, s')) (hres : s'.Reserved) :
    (p = 0 ∧ s' = s.alloc) ∨
      (∃ as' al', AllocInv g cfg ⟨s', insert p s.live⟩ as' al') ∧
        (size ≤ Large.sizeMax → p ∉ s.live ∧
          ∃ n, s'.classUntyped g p = some n ∧ size ≤ n ∧
            if size ≤ Small.sizeMax then g.small.InSlab p n else g.large.InSlab p n) := by
  have hlarge := g.large_start
  rcases Alloc.allocateUntyped_cases hx with ⟨c, hnew, hal, rfl⟩ | ⟨c, o, s₁, hnew, hal, rfl, rfl⟩ |
    ⟨c, hnew, hnew', hal, rfl⟩ | ⟨c, o, hnew, hnew', hal, rfl⟩ | ⟨hnew, hnew', hal⟩
  · -- a small class without blocks
    obtain ⟨m, hexec, rfl⟩ := Alloc.onSmall_ok hal
    cases hc : isZero c with
    | true =>
      have hwp := Heap.wp_allocateBlock_zero (t := t) (m := s.alloc.smallMem) inv.small.inv hc
      obtain ⟨-, rfl⟩ := wp_ok hwp hexec
      exact .inl ⟨rfl, rfl⟩
    | false =>
      have hwp := Heap.wp_allocateBlock (t := t) (m := s.alloc.smallMem) inv.small hc hbatch
      obtain ⟨o, _, ho, -⟩ := wp_ok hwp hexec
      cases ho
  · -- a small block
    have hmax : size ≤ Small.sizeMax := by
      by_contra h
      rw [Small.new_eq_none_iff.mpr (by omega)] at hnew
      cases hnew
    have hc : isZero c = false := by
      cases hc : isZero c with
      | false => rfl
      | true =>
        obtain ⟨m, hexec, rfl⟩ := Alloc.onSmall_ok hal
        have hwp := Heap.wp_allocateBlock_zero (t := t) (m := s.alloc.smallMem) inv.small.inv hc
        cases (wp_ok hwp hexec).1
    obtain ⟨⟨as', inv'⟩, hfresh, hclass, hslab⟩ := inv.allocateSmall hbatch hc hal hres
    exact .inr ⟨⟨as', al, inv'⟩, fun _ => ⟨hfresh, _, hclass, LawfulBracket.le_size size c hnew,
      by rwa [if_pos hmax]⟩⟩
  · -- there is always a large block
    obtain ⟨m, hexec, rfl⟩ := Alloc.onLarge_ok hal
    have hwp := Heap.wp_allocateBlock (t := t) (c := c) (m := s.alloc.largeMem) inv.large rfl hbatch
    obtain ⟨o, _, ho, -⟩ := wp_ok hwp hexec
    cases ho
  · have hmax := Small.new_eq_none_iff.mp hnew
    obtain ⟨⟨al', inv'⟩, hfresh, hclass, hslab⟩ := inv.allocateLarge hbatch rfl hal hres
    exact .inr ⟨⟨as, al', inv'⟩, fun _ => ⟨hfresh, _, hclass, LawfulBracket.le_size size c hnew',
      by rwa [if_neg (by omega)]⟩⟩
  · obtain ⟨as', inv'⟩ := inv.allocateHuge hbatch hal hres
    refine .inr ⟨⟨as', al, inv'⟩, fun hmax => ?_⟩
    rw [Large.new, if_pos hmax] at hnew'
    cases hnew'

/-- A free takes its block out of the live ones. -/
theorem freeUntyped (inv : AllocInv g cfg s as al) (hpos : 1 ≤ cfg.batchGlobal)
    (hle : cfg.batchGlobal ≤ cfg.cacheLocal + 1) (hp : p ∈ s.live)
    (hx : s.alloc.freeUntyped g cfg t p = .ok s') (hres : s'.Reserved) :
    ∃ as' al', AllocInv g cfg ⟨s', s.live.erase p⟩ as' al' := by
  rcases Alloc.freeUntyped_cases hx with
    ⟨o, s₁, ho, hfree, rfl⟩ | ⟨o, -, ho, hfree⟩ | ⟨ho, ho', hfree⟩
  · obtain ⟨as', inv'⟩ := inv.freeSmall hpos hle hp ho hfree hres
    exact ⟨as', al, inv'⟩
  · obtain ⟨al', inv'⟩ := inv.freeLarge hpos hle hp ho hfree hres
    exact ⟨as, al', inv'⟩
  · rcases inv.region p hp with ⟨o, h⟩ | ⟨o, h⟩ | hlive
    · rw [ho] at h
      cases h
    · rw [ho'] at h
      cases h
    · exact ⟨as, al, inv.freeHuge hlive hfree⟩

/-- **Every completed call keeps the invariant.** -/
theorem step {s' : AllocSession T} (inv : AllocInv g cfg s as al)
    (hbatch : cfg.batchBump % 2 ^ 32 ≠ 0) (hpos : 1 ≤ cfg.batchGlobal)
    (hle : cfg.batchGlobal ≤ cfg.cacheLocal + 1) (hstep : AllocSession.Step g cfg s s') :
    ∃ as' al', AllocInv g cfg s' as' al' := by
  obtain ⟨c, hlegal, hcall, hres⟩ := hstep
  cases c with
  | allocate t size =>
    rw [AllocSession.call] at hcall
    split at hcall
    · rename_i p alloc hal
      obtain rfl := Except.ok.inj hcall
      rcases inv.allocateUntyped hbatch hal hres with ⟨rfl, rfl⟩ | ⟨⟨as', al', inv'⟩, -⟩
      · exact ⟨as, al, by simpa using inv⟩
      · have hne := inv'.pointer_ne_zero (Finset.mem_insert_self p s.live)
        exact ⟨as', al', by simpa only [if_neg hne] using inv'⟩
    · cases hcall
  | free t p =>
    rw [AllocSession.call] at hcall
    split at hcall
    · rename_i alloc hfree
      obtain rfl := Except.ok.inj hcall
      exact inv.freeUntyped hpos hle hlegal hfree hres
    · cases hcall

/-- **The invariant holds in every state of a run.** -/
theorem run {blank : Descriptor} (hbatch : cfg.batchBump % 2 ^ 32 ≠ 0)
    (hpos : 1 ≤ cfg.batchGlobal) (hle : cfg.batchGlobal ≤ cfg.cacheLocal + 1)
    (hrun : ReflTransGen (AllocSession.Step g cfg) (AllocSession.zeroed blank) s) :
    ∃ as al, AllocInv g cfg s as al := by
  induction hrun with
  | refl => exact ⟨_, _, zeroed⟩
  | tail _ hstep ih =>
    obtain ⟨as, al, inv⟩ := ih
    exact inv.step hbatch hpos hle hstep

end AllocInv

/-- What a caller is promised when a request for `size` bytes returns `p`: nobody holds
it, and it heads a block of its class that lies inside one slab and meets no live block. -/
structure Alloc.HandsOut (g : Regions) (live : Finset ℕ) (size p : ℕ) (s : Alloc T) : Prop where
  fresh : p ∉ live
  block : ∃ n, s.classUntyped g p = some n ∧ size ≤ n ∧
    (if size ≤ Small.sizeMax then g.small.InSlab p n else g.large.InSlab p n) ∧
    ∀ q ∈ live, ∃ k, s.classUntyped g q = some k ∧
      Disjoint (Finset.Ico p (p + n)) (Finset.Ico q (q + k))

theorem AllocSession.run_of_script {cs : List (AllocCall T)} {s s' : AllocSession T}
    (hs : AllocSession.script g cfg cs s = some s') :
    ReflTransGen (AllocSession.Step g cfg) s s' := by
  refine Lib.run_of_foldlM (fun s c s' h => ?_) hs
  obtain ⟨h, hres⟩ := Option.filter_eq_some_iff.mp h
  obtain ⟨hlegal, hcall⟩ := Lib.of_attempt h
  exact ⟨c, hlegal, hcall, of_decide_eq_true hres⟩

namespace AllocSession

/-- **No double allocation**, as long as `batch_bump` is no multiple of `2^32`. -/
theorem no_double_allocation (g : Regions) (cfg : Config) (blank : Descriptor)
    (hbump : cfg.batchBump % 2 ^ 32 ≠ 0) (hpos : 1 ≤ cfg.batchGlobal)
    (hle : cfg.batchGlobal ≤ cfg.cacheLocal + 1) (s : AllocSession T)
    (hrun : ReflTransGen (Step g cfg) (zeroed blank) s) (t : T) (size : ℕ)
    (hmax : size ≤ 512 * 1024) (p : ℕ) (s' : Alloc T)
    (hcall : s.alloc.allocateUntyped g cfg t size = .ok (p, s')) (hres : s'.Reserved)
    (hp : p ≠ 0) : s'.HandsOut g s.live size p := by
  obtain ⟨as, al, inv⟩ := AllocInv.run hbump hpos hle hrun
  rcases inv.allocateUntyped hbump hcall hres with ⟨rfl, -⟩ | ⟨⟨as', al', inv'⟩, hblock⟩
  · exact absurd rfl hp
  · obtain ⟨hfresh, n, hclass, hsize, hslab⟩ := hblock hmax
    refine ⟨hfresh, n, hclass, hsize, hslab, fun q hq => ?_⟩
    have hp' : p ∈ insert p s.live := Finset.mem_insert_self p s.live
    have hq' : q ∈ insert p s.live := Finset.mem_insert_of_mem hq
    have hne : p ≠ q := fun h => hfresh (h ▸ hq)
    obtain ⟨k, hk, -⟩ := inv'.block hq'
    refine ⟨k, hk, Finset.disjoint_left.mpr fun x hx hx' => ?_⟩
    rw [Finset.mem_Ico] at hx hx'
    rcases inv'.blocks_disjoint hp' hq' hne hclass hk with h | h
    · omega
    · omega

/-- The regions of the examples below. -/
def exampleRegions : Regions := .at 1 Nat.one_pos

/-- Two threads hold a block each, one of them asks for a third. -/
theorem no_double_allocation_third : ∃ (s : AllocSession (Fin 2)) (p : ℕ) (s' : Alloc (Fin 2)),
    s.live.card = 2 ∧ s'.HandsOut exampleRegions s.live 1000 p := by
  obtain ⟨s, hs, hcard, hnext⟩ : ∃ s : AllocSession (Fin 2),
      script exampleRegions (.initial true) [.allocate 0 1000, .allocate 1 300000]
        (zeroed ⟨0, 0, 0, .safe⟩) = some s ∧
      (s.live.card = 2 ∧ ((s.alloc.allocateUntyped exampleRegions (.initial true) 1 1000).toOption.any
        fun r => decide (r.1 ≠ 0 ∧ r.2.Reserved)) = true) :=
    Session.exists_of_any (by decide +kernel)
  cases hcall : s.alloc.allocateUntyped exampleRegions (.initial true) 1 1000 with
  | error e =>
    rw [hcall] at hnext
    cases hnext
  | ok r =>
    obtain ⟨p, s'⟩ := r
    rw [hcall] at hnext
    obtain ⟨hp, hres⟩ := of_decide_eq_true hnext
    exact ⟨s, p, s', hcard, no_double_allocation exampleRegions (.initial true) _ (by decide)
      (by decide) (by decide) s (run_of_script hs) 1 1000 (by decide) p s' hcall hres hp⟩

/-- With `batch_bump = 2^32` the second thread gets the block the first one holds. -/
theorem no_double_allocation_truncated_batch :
    ∃ (s : AllocSession (Fin 2)) (p : ℕ) (s' : Alloc (Fin 2)),
      ReflTransGen (Step exampleRegions { Config.initial false with batchBump := 2 ^ 32 })
        (zeroed ⟨0, 0, 0, .safe⟩) s ∧
      s.alloc.allocateUntyped exampleRegions { Config.initial false with batchBump := 2 ^ 32 } 1
        300000 = .ok (p, s') ∧
      s'.Reserved ∧ p ≠ 0 ∧ p ∈ s.live ∧ ¬ s'.HandsOut exampleRegions s.live 300000 p := by
  obtain ⟨s, hs, hnext⟩ : ∃ s : AllocSession (Fin 2),
      script exampleRegions { Config.initial false with batchBump := 2 ^ 32 } [.allocate 0 300000]
        (zeroed ⟨0, 0, 0, .safe⟩) = some s ∧
      ((s.alloc.allocateUntyped exampleRegions { Config.initial false with batchBump := 2 ^ 32 } 1
        300000).toOption.any fun r => decide (r.2.Reserved ∧ r.1 ≠ 0 ∧ r.1 ∈ s.live)) = true :=
    Session.exists_of_any (by decide +kernel)
  cases hcall : s.alloc.allocateUntyped exampleRegions
      { Config.initial false with batchBump := 2 ^ 32 } 1 300000 with
  | error e =>
    rw [hcall] at hnext
    cases hnext
  | ok r =>
    obtain ⟨p, s'⟩ := r
    rw [hcall] at hnext
    obtain ⟨hres, hp, hmem⟩ := of_decide_eq_true hnext
    exact ⟨s, p, s', run_of_script hs, hcall, hres, hp, hmem, fun h => h.fresh hmem⟩

end AllocSession

end Invariant

end Cxlalloc
