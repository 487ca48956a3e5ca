/-
The remote-free protocol of one slab: its invariant, and what a thread can count on.

`Sound` is what holds of the slab between any two accesses.  Two facts of it do the work.

  * The counter is the number of blocks that have not been freed remotely.  Whoever frees a
    block remotely therefore finds it above zero, and it reaches zero only when every block
    is gone: none is in the bitset, none is with the application, and the owner is not in the
    middle of popping one.
  * The slab is off the owner's stack once no block of it is free, popped or being freed by the
    owner.  So it is on no stack when the counter reaches zero.

The owner disowns the slab only while it holds a popped block, so no claim can come before
that store.
-/
import Cxlalloc.RemoteFrees
import Cxlalloc.Lib.Chain
import Cxlalloc.Proofs.Data
import Cxlalloc.Proofs.Update

namespace Cxlalloc

open Lib
open Lib.Protocol
open Function
open Cxlalloc.Bracket

theorem BitSet.has_iff {n k : ℕ} {s : BitSet n} : s.has k = true ↔ k ∈ s.elems := by
  rw [mem_elems]
  refine ⟨fun h => ⟨?_, h⟩, And.right⟩
  by_contra hk
  have hword : s.word (k / 64) = 0 := dif_neg (by omega)
  rw [has, hword] at h
  simp at h

namespace SlabMem

variable {T B : Type} [Bracket B]

/-! ### The owner's part of the memory -/

/-- What only the owner changes, until the slab is stolen. -/
structure View (T B : Type) [Bracket B] where
  next : Index B → Option (Index B)
  head : StackId T B → Option (Index B)
  len : StackId T B → ℕ
  owner : Option T
  bits : BitSet (rows B)

/-- The owner's part of the memory. -/
def view (z : Sizing T B) (m : SlabMem T B) : View T B where
  next := m.next
  head := m.head
  len := m.len
  owner := m.owner z.index
  bits := m.bits z.index

/-- The slab is disowned only with an empty bitset, and is on no other stack. -/
structure View.Ok (z : Sizing T B) (v : View T B) : Prop where
  owner : v.owner = some z.owner ∨ v.owner = none ∧ v.bits.elems = ∅
  others : ∀ s, s ≠ .sized z.owner z.sizeClass → ¬ Reaches v.next (v.head s) z.index

/-- Between two calls of the owner, the slab is on top of its stack if it has a free block, and
off the stack if it has none. -/
structure View.Placed (z : Sizing T B) (v : View T B) : Prop where
  top : v.bits.elems.Nonempty → v.head (.sized z.owner z.sizeClass) = some z.index ∧
    ¬ Reaches v.next (v.next z.index) z.index ∧ 0 < v.len (.sized z.owner z.sizeClass)
  off : v.bits.elems = ∅ → ¬ Reaches v.next (v.head (.sized z.owner z.sizeClass)) z.index

variable {z : Sizing T B} {m m' : SlabMem T B} {t u : T} {b : ℕ}

/-! ### The invariant -/

/-- The block is where only the owner moves it. -/
def AtOwner (z : Sizing T B) (p : BlockState T) : Prop :=
  p = .free ∨ p = .popped ∨ p = .freeing z.owner

/-- The blocks of the slab that are in a place. -/
def blocks (z : Sizing T B) (m : SlabMem T B) (f : BlockState T → Bool) : Finset ℕ :=
  (Finset.range (count z.sizeClass)).filter fun b => f (m.place b)

theorem mem_blocks {f : BlockState T → Bool} :
    b ∈ m.blocks z f ↔ b < count z.sizeClass ∧ f (m.place b) = true := by
  rw [blocks, Finset.mem_filter, Finset.mem_range]

variable [DecidableEq T]

/-- What holds between any two accesses. -/
structure Sound (z : Sizing T B) (m : SlabMem T B) : Prop where
  sizeClass : m.sizeClass z.index = z.sizeClass
  valid : (m.bits z.index).validate = true
  mem_bits : ∀ b, b ∈ (m.bits z.index).elems ↔ m.place b = .free
  outside : ∀ b, count z.sizeClass ≤ b → m.place b = .gone
  counter : (m.remote z.index).inner.free + m.decrements = count z.sizeClass
  gone : m.decrements = (m.blocks z (· = .gone)).card
  freeingOnce : ∀ t b b', m.place b = .freeing t → m.place b' = .freeing t → b = b'
  poppedOnce : ∀ b b', m.place b = .popped → m.place b' = .popped → b = b'
  last : ∀ t, m.last = some t → ∀ b, m.place b = .gone
  ended : (∀ b, m.place b = .gone) → m.last ≠ none
  claims : m.claims = [] ∨ ∃ t, m.last = some t ∧ m.claims = [t]
  closed : m.closed = true →
    m.claims ≠ [] ∨ ∀ b < count z.sizeClass, m.place b = .free
  view : m.closed = false → (m.view z).Ok z
  detached : m.closed = false → (∀ b, ¬ AtOwner z (m.place b)) →
    ¬ Reaches m.next (m.head (.sized z.owner z.sizeClass)) z.index

/-- A block that is not gone is one of the slab. -/
theorem Sound.lt_count (hm : m.Sound z) (hb : m.place b ≠ .gone) : b < count z.sizeClass :=
  Nat.lt_of_not_le fun h => hb (hm.outside b h)

theorem Sound.card_elems_le (hm : m.Sound z) :
    (m.bits z.index).elems.card ≤ count z.sizeClass := by
  rw [← Finset.card_range (count z.sizeClass)]
  refine Finset.card_le_card fun b hb => Finset.mem_range.mpr (hm.lt_count ?_)
  rw [(hm.mem_bits b).mp hb]
  simp

/-- As long as a block is not gone, the counter is not zero. -/
theorem Sound.free_pos (hm : m.Sound z) (hb : m.place b ≠ .gone) :
    0 < (m.remote z.index).inner.free := by
  have hlt : (m.blocks z (· = .gone)).card < (Finset.range (count z.sizeClass)).card := by
    refine Finset.card_lt_card (Finset.filter_ssubset.mpr ⟨b, ?_, by simpa using hb⟩)
    exact Finset.mem_range.mpr (hm.lt_count hb)
  rw [Finset.card_range] at hlt
  have := hm.counter
  have := hm.gone
  omega

/-- The slab has no blocks beyond its count, so counting the ones that are gone tells whether
all are. -/
theorem card_gone_iff (hout : ∀ b, count z.sizeClass ≤ b → m.place b = .gone) :
    (m.blocks z (· = .gone)).card = count z.sizeClass ↔ ∀ b, m.place b = .gone := by
  rw [blocks]
  nth_rewrite 2 [← Finset.card_range (count z.sizeClass)]
  rw [Finset.card_filter_eq_iff]
  constructor
  · intro h b
    rcases Nat.lt_or_ge b (count z.sizeClass) with hb | hb
    · simpa using h b (Finset.mem_range.mpr hb)
    · exact hout b hb
  · intro h b _
    simpa using h b

/-- Nobody has taken the counter of a slab to zero that has a block which is not gone. -/
theorem Sound.no_last (hm : m.Sound z) (hb : m.place b ≠ .gone) : m.last = none := by
  cases h : m.last with
  | none => rfl
  | some t => exact absurd (hm.last t h b) hb

theorem Sound.no_claims (hm : m.Sound z) (hlast : m.last = none) : m.claims = [] := by
  rcases hm.claims with h | ⟨t, h, -⟩
  · exact h
  · rw [hlast] at h
    cases h

/-- A block that is neither gone nor in the bitset belongs to a slab in use. -/
theorem Sound.not_closed (hm : m.Sound z) (hgone : m.place b ≠ .gone) (hfree : m.place b ≠ .free) :
    m.closed = false := by
  refine Bool.eq_false_iff.mpr fun hclosed => ?_
  rcases hm.closed hclosed with h | h
  · exact h (hm.no_claims (hm.no_last hgone))
  · exact hfree (h b (hm.lt_count hgone))

/-- A slab whose counter is zero is not back in one piece. -/
theorem Sound.not_closed_of_last [LawfulBracket B] (hm : m.Sound z) (hlast : m.last = some t)
    (hclaims : m.claims = []) : m.closed = false := by
  refine Bool.eq_false_iff.mpr fun hclosed => ?_
  have hfree := (hm.closed hclosed).resolve_left (not_not_intro hclaims) 0
    (LawfulBracket.count_pos z.sizeClass z.nonzero)
  rw [hm.last t hlast 0] at hfree
  cases hfree

/-! ### What a step does -/

/-- What a step of `u` does to a block. -/
inductive Moves (z : Sizing T B) (u : T) : BlockState T → BlockState T → Prop
  | stay (p : BlockState T) : Moves z u p p
  | pop (hu : u = z.owner) : Moves z u .free .popped
  | handOut (hu : u = z.owner) : Moves z u .popped .live
  | call : Moves z u .live (.freeing u)
  | set (hu : u = z.owner) : Moves z u (.freeing u) .free
  | decrement : Moves z u (.freeing u) .gone

section Moves

variable {p p' : BlockState T}

omit [DecidableEq T] in
/-- What a thread is freeing, the others leave to it. -/
theorem Moves.freeing_iff (h : Moves z u p p') (hu : u ≠ t) : p' = .freeing t ↔ p = .freeing t := by
  cases h with
  | stay => rfl
  | pop => simp
  | handOut => simp
  | call => simp [hu]
  | set => simp [hu]
  | decrement => simp [hu]

omit [DecidableEq T] in
/-- Only the owner pops blocks and puts them back. -/
theorem Moves.atOwner_eq (h : Moves z u p p') (hu : u ≠ z.owner) (hp : AtOwner z p) : p' = p := by
  cases h with
  | stay => rfl
  | pop hu' => exact absurd hu' hu
  | handOut hu' => exact absurd hu' hu
  | call => simp [AtOwner] at hp
  | set hu' => exact absurd hu' hu
  | decrement => simp [AtOwner, hu] at hp

omit [DecidableEq T] in
theorem Moves.atOwner_iff (h : Moves z u p p') (hu : u ≠ z.owner) : AtOwner z p' ↔ AtOwner z p := by
  cases h with
  | stay => rfl
  | pop hu' => exact absurd hu' hu
  | handOut hu' => exact absurd hu' hu
  | call => simp [AtOwner, hu]
  | set hu' => exact absurd hu' hu
  | decrement => simp [AtOwner, hu]

omit [DecidableEq T] in
theorem Moves.popped_iff (h : Moves z u p p') (hu : u ≠ z.owner) : p' = .popped ↔ p = .popped := by
  cases h with
  | stay => rfl
  | pop hu' => exact absurd hu' hu
  | handOut hu' => exact absurd hu' hu
  | call => simp
  | set => simp
  | decrement => simp

end Moves

/-- What a step of `u` does. -/
structure Acts (z : Sizing T B) (u : T) (m m' : SlabMem T B) : Prop where
  place : ∀ b, Moves z u (m.place b) (m'.place b)
  last : m'.last = m.last ∨ m.last = none ∧ m'.last = some u
  claims : m'.claims = m.claims ∨ m.last = some u
  closed : m.closed = true → m'.closed = true
  ends : m.closed = false → m'.closed = true → u = z.owner ∨ m.last = some u
  view : u ≠ z.owner → m'.closed = false → m'.view z = m.view z

omit [DecidableEq T] in
theorem Acts.refl (z : Sizing T B) (u : T) (m : SlabMem T B) : Acts z u m m where
  place _ := .stay _
  last := .inl rfl
  claims := .inl rfl
  closed h := h
  ends h h' := by
    rw [h] at h'
    cases h'
  view _ _ := rfl

omit [DecidableEq T] in
theorem Acts.closed_of_not (h : Acts z u m m') (hclosed : m'.closed = false) : m.closed = false := by
  refine Bool.eq_false_iff.mpr fun h' => ?_
  rw [h.closed h'] at hclosed
  cases hclosed

/-- Nobody but the owner ends the life of a slab with a block that is not gone. -/
theorem Acts.not_closed (h : Acts z u m m') (hm : m.Sound z) (hu : u ≠ z.owner)
    (hclosed : m.closed = false) (hb : m.place b ≠ .gone) : m'.closed = false := by
  refine Bool.eq_false_iff.mpr fun hclosed' => ?_
  rcases h.ends hclosed hclosed' with hu' | hlast
  · exact hu hu'
  · rw [hm.no_last hb] at hlast
    cases hlast

/-! ### The protocol -/

/-- What a thread makes sure of before an access.

  * The counter is not decremented from zero.
  * A claim is the first, comes when all blocks have been freed remotely, and finds the slab
    with an empty bitset and on no stack.
  * The owner of the slab is cleared before it is claimed, by the thread that sized it, or by
    the thread that has claimed it.
  * Nothing fails but the loop of a compare-exchange, until the slab has been claimed or has all
    its blocks again. -/
def Allowed (z : Sizing T B) : Guard T (Access T B) (SlabMem T B) :=
  fun t _ act m =>
    match act with
    | .casWord (.remote i) old new =>
      i = z.index ∧ 0 < old.inner.free ∧ new.inner.free + 1 = old.inner.free
    | .record _ (.claim _) =>
      m.claims = [] ∧ m.decrements = count z.sizeClass ∧
        (m.bits z.index).isEmpty = true ∧ ∀ s, ¬ Reaches m.next (m.head s) z.index
    | .storeOwner i none => i = z.index →
        m.closed = false ∧ t = z.owner ∧ m.last = none ∨
          m.closed = true ∧ (m.claims = [] ∨ m.claims = [t])
    | .panic e => m.closed = true ∨ e = .diverge
    | _ => True

/-- Between two calls of a thread. -/
structure Rest (z : Sizing T B) (t : T) (m : SlabMem T B) : Prop where
  freeing : ∀ b, m.place b ≠ .freeing t
  popped : t = z.owner → ∀ b, m.place b ≠ .popped
  claimed : m.last = some t → m.claims = [t]
  placed : t = z.owner → m.closed = false → (m.view z).Placed z

omit [DecidableEq T] in
theorem Rest.acts (h : Rest z t m) (hu : u ≠ t) (hacts : Acts z u m m') : Rest z t m' := by
  refine ⟨fun b hb => ?_, fun ht b hb => ?_, fun hlast => ?_, ?_⟩
  · exact h.freeing b (((hacts.place b).freeing_iff hu).mp hb)
  · exact h.popped ht b (((hacts.place b).popped_iff (ht ▸ hu)).mp hb)
  · rcases hacts.last with hsame | ⟨-, hlast'⟩
    · rw [hsame] at hlast
      have hclaims := hacts.claims.resolve_right fun h' => hu (Option.some.inj (h'.symm.trans hlast))
      rw [hclaims]
      exact h.claimed hlast
    · exact absurd (Option.some.inj (hlast'.symm.trans hlast)) hu
  · rintro rfl hclosed
    rw [hacts.view hu hclosed]
    exact h.placed rfl (hacts.closed_of_not hclosed)

variable [DecidableEq B] {cfg : Config} {β : Type}

/-- The accesses to the heap alone. -/
def accesses (z : Sizing T B) : System T (Access T B) (SlabMem T B) Panic where
  Call := PEmpty
  code _ := PEmpty.elim
  legal _ _ _ := False
  enter _ _ m := m
  handle := handle z

/-- How threads free the blocks of a slab. -/
def freeing (z : Sizing T B) : Protocol (accesses z) Guard.any :=
  ofSteps _ _ (Sound z) (Acts z) (Allowed z) (Rest z) (Acts.refl z)

theorem stable {J : SlabMem T B → Prop}
    (h : ∀ u m m', u ≠ t → m.Sound z → m'.Sound z → Acts z u m m' → J m → J m') :
    (freeing z).Stable t J :=
  stable_ofSteps h

theorem stable_rest : (freeing z).Stable t (Rest z t) :=
  stable fun _ _ _ hu _ _ hacts h => h.acts hu hacts

variable {act : Access T B β}

/-- An access that keeps the protocol. -/
theorem does {J : SlabMem T B → Prop}
    {J' : β → SlabMem T B → Prop} (hneeds : ∀ m, m.Sound z → J m → Allowed z t β act m)
    (h : ∀ m b m', m.Sound z → J m → handle z t β act m = .ok (b, m') →
      m'.Sound z ∧ Acts z t m m' ∧ J' b m') :
    (freeing z).Does t J act J' :=
  fun m hm hJ => ⟨hneeds m hm hJ, fun _ b m' hb => h m b m' hm hJ hb⟩

/-- A read. -/
theorem does_read {J : SlabMem T B → Prop} (f : SlabMem T B → β)
    (hneeds : ∀ m, Allowed z t β act m) (hact : ∀ m, handle z t β act m = .ok (f m, m)) :
    (freeing z).Does t J act fun b m => J m ∧ b = f m := by
  refine does (fun m _ _ => hneeds m) fun m b m' hm hJ h => ?_
  rw [hact] at h
  obtain ⟨rfl, rfl⟩ := ok_inj h
  exact ⟨hm, .refl z t m, hJ, rfl⟩

/-- A write. -/
theorem does_write {act : Access T B Unit} {J J' : SlabMem T B → Prop}
    (f : SlabMem T B → SlabMem T B) (hneeds : ∀ m, m.Sound z → J m → Allowed z t Unit act m)
    (hact : ∀ m, handle z t Unit act m = .ok ((), f m))
    (h : ∀ m, m.Sound z → J m → (f m).Sound z ∧ Acts z t m (f m) ∧ J' (f m)) :
    (freeing z).Does t J act fun _ => J' := by
  refine does hneeds fun m b m' hm hJ hb => ?_
  rw [hact] at hb
  obtain ⟨-, rfl⟩ := ok_inj hb
  exact h m hm hJ

/-- What is known does not depend on the help array and the records. -/
def Quiet (J : SlabMem T B → Prop) : Prop :=
  ∀ m help log, J m → J { m with help := help, log := log }

variable {J : SlabMem T B → Prop} {v : Version} {r : Option (HeapState B)} {e : Event B}

omit [DecidableEq B] in
theorem Sound.quiet : Quiet (Sound z) :=
  fun _ _ _ hm => { hm with }

theorem does_storeHelp (hJ : Quiet J) : (freeing z).Does t J (.storeHelp t u v) fun _ => J :=
  does_write (fun m => { m with help := update m.help t (update (m.help t) u v) })
    (fun _ _ _ => trivial) (fun _ => rfl)
    fun m hm hj => ⟨hm.quiet m _ m.log, { Acts.refl z t m with }, hJ m _ m.log hj⟩

theorem does_storeLog (hJ : Quiet J) : (freeing z).Does t J (.storeLog t r) fun _ => J :=
  does_write (fun m => { m with log := update m.log t r }) (fun _ _ _ => trivial) (fun _ => rfl)
    fun m hm hj => ⟨hm.quiet m m.help _, { Acts.refl z t m with }, hJ m m.help _ hj⟩

theorem does_record (he : ∀ c, e ≠ .claim c) : (freeing z).Does t J (.record t e) fun _ => J := by
  refine does_write id (fun _ _ _ => ?_) (fun m => ?_) fun m hm hj => ⟨hm, .refl z t m, hj⟩
  · cases e with
    | claim c => exact absurd rfl (he c)
    | _ => trivial
  · cases e with
    | claim c => exact absurd rfl (he c)
    | _ => rfl

end SlabMem

end Cxlalloc
