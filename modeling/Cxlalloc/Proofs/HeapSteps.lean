/-
The slab heap under every interleaving: what a step of a thread can do to a slab.

Everything the memory has about one slab is put together as a `SlabState`.  `Change u x x'` lists
what an access of thread `u` may do to a slab; every such step keeps the slab sound
(`Change.sound`).  The counter of a carved slab is the number of blocks that have not been freed
remotely, so the thread that takes it to zero has freed the last one, and the slab is its own from
that moment on.

`Sees t h x` is what thread `t` knows of a slab: all of it while the slab is its own, and while it
has carved the slab and a block of it is in the bitset or in its hands.  The others keep that
(`Sees.change`).
-/
import Cxlalloc.HeapSteps
import Cxlalloc.Proofs.RemoteFrees
import Cxlalloc.Proofs.Places

namespace Cxlalloc

open Cxlalloc.Bracket
open Function

/-- What the memory has about a slab. -/
structure SlabState (T B : Type) [Bracket B] where
  place : SlabPlace T
  block : ℕ → BlockPlace T
  next : Option (Index B)
  owner : Option T
  sizeClass : B
  bits : BitSet (rows B)
  free : ℕ

namespace SlabState

variable {T B : Type} [Bracket B]

/-- The slab is carved into blocks. -/
def Carved (x : SlabState T B) : Prop :=
  (∃ t, x.place = .sized t) ∨ x.place = .disowned

/-- What thread `u` may do to a slab that is not on the global stack. -/
inductive Edit (u : T) (x : SlabState T B) : SlabState T B → Prop
  | write (hx : x.place = .unsized u) (next : Option (Index B)) (owner : Option T) (c : B)
      (bits : BitSet (rows B)) :
      Edit u x { x with next := next, owner := owner, sizeClass := c, bits := bits }
  | link (hx : x.place = .sized u) (next : Option (Index B)) : Edit u x { x with next := next }
  | take {b : ℕ} (hx : x.place = .sized u) (hb : x.block b = .slab) {s : BitSet (rows B)}
      (hs : s.validate = true) (helems : s.elems = x.bits.elems.erase b) :
      Edit u x { x with bits := s, block := update x.block b (.thread u) }
  | put {b : ℕ} (hx : x.place = .sized u) (hb : x.block b = .thread u) {s : BitSet (rows B)}
      (hs : s.validate = true) (helems : s.elems = insert b x.bits.elems) :
      Edit u x { x with bits := s, block := update x.block b .slab }
  | disown (hx : x.place = .sized u) (helems : x.bits.elems = ∅) :
      Edit u x { x with owner := none, place := .disowned }
  | carve (hx : x.place = .unsized u) (hc : isZero x.sizeClass = false) (howner : x.owner = some u)
      (hs : x.bits.validate = true) (helems : x.bits.elems = Finset.range (count x.sizeClass)) :
      Edit u x { x with
        place := .sized u
        block := fun b => if b < count x.sizeClass then .slab else .gone
        free := count x.sizeClass }
  | retire (hx : x.place = .sized u) (helems : x.bits.elems = Finset.range (count x.sizeClass)) :
      Edit u x { x with place := .unsized u, block := fun _ => .gone }
  | decrement {b : ℕ} (hb : x.block b = .thread u) (hfree : 1 < x.free) :
      Edit u x { x with block := update x.block b .gone, free := x.free - 1 }
  | claim {b : ℕ} (hb : x.block b = .thread u) (hfree : x.free = 1) :
      Edit u x { x with place := .unsized u, block := fun _ => .gone, free := 0 }

/-- What an access of thread `u` may do to a slab. -/
inductive Change (u : T) (x : SlabState T B) : SlabState T B → Prop
  | same : Change u x x
  | edit {x' : SlabState T B} (h : Edit u x x') : Change u x x'
  | bump (hx : x.place = .fresh) : Change u x { x with place := .unsized u }
  | pop (hx : x.place = .global) : Change u x { x with place := .unsized u }
  | push (hx : x.place = .unsized u) : Change u x { x with place := .global }
  | hand {b : ℕ} (hb : x.block b = .thread u) :
      Change u x { x with block := update x.block b .application }
  | call {b : ℕ} (hb : x.block b = .application) :
      Change u x { x with block := update x.block b (.thread u) }

variable [DecidableEq T] {x x' : SlabState T B} {t u : T} {b : ℕ}

/-- The blocks that have not been freed remotely. -/
def counted (x : SlabState T B) : Finset ℕ :=
  (Finset.range (count x.sizeClass)).filter fun b => x.block b ≠ .gone

theorem mem_counted : b ∈ x.counted ↔ b < count x.sizeClass ∧ x.block b ≠ .gone := by
  rw [counted, Finset.mem_filter, Finset.mem_range]

/-- What its place says about a slab. -/
structure Sound (x : SlabState T B) : Prop where
  carved : ∀ b, x.block b ≠ .gone → x.Carved
  isZero : x.Carved → isZero x.sizeClass = false
  outside : ∀ b, count x.sizeClass ≤ b → x.block b = .gone
  /-- The remote counter. -/
  counter : x.Carved → x.free = x.counted.card
  pos : x.Carved → 0 < x.free
  owner : ∀ t, x.place = .sized t → x.owner = some t
  valid : ∀ t, x.place = .sized t → x.bits.validate = true
  mem_bits : ∀ t, x.place = .sized t → ∀ b, b ∈ x.bits.elems ↔ x.block b = .slab
  disowned : x.place = .disowned → x.owner = none
  empty : x.place = .disowned → ∀ b, x.block b ≠ .slab

/-! ### A slab stays sound -/

omit [DecidableEq T] in
theorem Carved.of_sized (h : x.place = .sized t) : x.Carved := .inl ⟨t, h⟩

omit [DecidableEq T] in
theorem not_carved_unsized (h : x.place = .unsized t) : ¬ x.Carved := by
  simp [Carved, h]

omit [DecidableEq T] in
/-- A write to one block, as far as it concerns where the others are. -/
theorem update_eq_iff {f : ℕ → BlockPlace T} {p q : BlockPlace T} {b' : ℕ} (hp : p ≠ q)
    (hq : f b ≠ q) : update f b p b' = q ↔ f b' = q := by
  by_cases hb' : b' = b
  · subst hb'
    rw [update_self]
    exact iff_of_false hp hq
  · rw [update_of_ne hb']

namespace Sound

theorem gone (hx : x.Sound) (h : ¬ x.Carved) (b : ℕ) : x.block b = .gone := by
  by_contra hb
  exact h (hx.carved b hb)

theorem lt_count (hx : x.Sound) (hb : x.block b ≠ .gone) : b < count x.sizeClass :=
  Nat.lt_of_not_le fun h => hb (hx.outside b h)

theorem counted_of (hx : x.Sound) (hb : x.block b ≠ .gone) : b ∈ x.counted :=
  mem_counted.mpr ⟨hx.lt_count hb, hb⟩

/-- With a counter of one, there is one block left. -/
theorem gone_of_one (hx : x.Sound) (hb : x.block b ≠ .gone) (hfree : x.free = 1) {b' : ℕ}
    (hb' : b' ≠ b) : x.block b' = .gone := by
  by_contra hne
  have hone : x.counted.card = 1 := by rw [← hx.counter (hx.carved b hb), hfree]
  exact hb' (Finset.card_le_one.mp hone.le b' (hx.counted_of hne) b (hx.counted_of hb))

/-- All blocks of a full bitset are in the slab. -/
theorem full (hx : x.Sound) (hsized : x.place = .sized t)
    (helems : x.bits.elems = Finset.range (count x.sizeClass)) (b : ℕ) :
    x.block b = .slab ∨ x.block b = .gone := by
  by_cases hb : b < count x.sizeClass
  · exact .inl ((hx.mem_bits t hsized b).mp (by rw [helems]; exact Finset.mem_range.mpr hb))
  · exact .inr (hx.outside b (Nat.le_of_not_lt hb))

/-- A slab that is not carved has no blocks. -/
theorem of_whole (hcarved : ¬ x.Carved) (hgone : ∀ b, x.block b = .gone) : x.Sound where
  carved b hb := absurd (hgone b) hb
  isZero h := absurd h hcarved
  outside b _ := hgone b
  counter h := absurd h hcarved
  pos h := absurd h hcarved
  owner _ h := absurd (.of_sized h) hcarved
  valid _ h := absurd (.of_sized h) hcarved
  mem_bits _ h := absurd (.of_sized h) hcarved
  disowned h := absurd (.inr h) hcarved
  empty h := absurd (.inr h) hcarved

/-- A block moves, and stays counted. -/
theorem moveBlock (hx : x.Sound) (hb : x.block b ≠ .gone) {p : BlockPlace T} (hp : p ≠ .gone)
    {s : BitSet (rows B)} (hvalid : ∀ t, x.place = .sized t → s.validate = true)
    (hbits : ∀ t, x.place = .sized t → ∀ b', b' ∈ s.elems ↔ update x.block b p b' = .slab)
    (hempty : x.place = .disowned → p ≠ .slab) :
    ({ x with bits := s, block := update x.block b p } : SlabState T B).Sound := by
  have hgone : ∀ b', update x.block b p b' = .gone ↔ x.block b' = .gone := fun _ =>
    update_eq_iff hp hb
  have hcounted : ({ x with bits := s, block := update x.block b p } : SlabState T B).counted =
      x.counted := by
    ext b'
    rw [mem_counted, mem_counted]
    exact and_congr_right fun _ => not_congr (hgone b')
  refine { hx with carved := fun b' h => ?_, outside := fun b' h => ?_, counter := fun h => ?_,
                   valid := hvalid, mem_bits := hbits, empty := fun h b' => ?_ }
  · exact hx.carved b' fun h' => h ((hgone b').mpr h')
  · exact (hgone b').mpr (hx.outside b' h)
  · rw [hcounted]
    exact hx.counter h
  · exact (update_eq_iff (hempty h) (hx.empty h b)).not.mpr (hx.empty h b')

end Sound

/-- One block less is counted. -/
theorem counted_decrement (hb : b ∈ x.counted) :
    ({ x with block := update x.block b .gone, free := x.free - 1 } : SlabState T B).counted =
      x.counted.erase b := by
  ext b'
  rw [Finset.mem_erase, mem_counted, mem_counted]
  by_cases hb' : b' = b
  · subst hb'
    simp
  · simp [hb']

theorem Edit.sound [LawfulBracket B] (h : Edit u x x') (hx : x.Sound) : x'.Sound := by
  cases h with
  | write hp next owner c bits =>
    have hgone := hx.gone (not_carved_unsized hp)
    exact .of_whole (by simp [Carved, hp]) hgone
  | link hp next => exact { hx with }
  | @take b hp hb s hs helems =>
    refine hx.moveBlock (by simp [hb]) (by simp) (fun _ _ => hs) (fun t ht b' => ?_)
      fun h => by simp [hp] at h
    rw [helems, Finset.mem_erase, hx.mem_bits t ht]
    by_cases hb' : b' = b
    · subst hb'
      simp
    · simp [hb']
  | @put b hp hb s hs helems =>
    refine hx.moveBlock (by simp [hb]) (by simp) (fun _ _ => hs) (fun t ht b' => ?_)
      fun h => by simp [hp] at h
    rw [helems, Finset.mem_insert, hx.mem_bits t ht]
    by_cases hb' : b' = b
    · subst hb'
      simp
    · simp [hb']
  | disown hp helems =>
    refine { hx with carved := fun _ _ => .inr rfl, isZero := fun _ => hx.isZero (.of_sized hp),
                     counter := fun _ => hx.counter (.of_sized hp),
                     pos := fun _ => hx.pos (.of_sized hp),
                     owner := fun _ h => (by cases h), valid := fun _ h => (by cases h),
                     mem_bits := fun _ h => (by cases h), disowned := fun _ => rfl,
                     empty := fun _ b h => ?_ }
    have hmem := (hx.mem_bits u hp b).mpr h
    rw [helems] at hmem
    simp at hmem
  | carve hp hc howner hs helems =>
    have hcount : ∀ b, (if b < count x.sizeClass then BlockPlace.slab else .gone : BlockPlace T)
        ≠ .gone ↔ b < count x.sizeClass := by
      intro b
      split <;> simp [*]
    refine { carved := fun _ _ => .inl ⟨u, rfl⟩, isZero := fun _ => hc, outside := fun b hb => ?_,
             counter := fun _ => ?_, pos := fun _ => ?_, owner := fun t ht => ?_,
             valid := fun _ _ => hs, mem_bits := fun _ _ b => ?_,
             disowned := fun h => (by cases h), empty := fun h => (by cases h) }
    · exact if_neg (Nat.not_lt.mpr hb)
    · show count x.sizeClass = _
      have hall : ({ x with
          place := .sized u
          block := fun b => if b < count x.sizeClass then .slab else .gone
          free := count x.sizeClass } : SlabState T B).counted =
          Finset.range (count x.sizeClass) := by
        ext b
        rw [mem_counted, Finset.mem_range, hcount]
        exact and_self_iff
      rw [hall, Finset.card_range]
    · exact LawfulBracket.count_pos _ hc
    · rw [howner]
      injection ht with ht
      rw [ht]
    · show b ∈ x.bits.elems ↔ (if b < count x.sizeClass then BlockPlace.slab else .gone) = .slab
      rw [helems, Finset.mem_range]
      split <;> simp [*]
  | retire hp helems => exact .of_whole (by simp [Carved]) fun _ => rfl
  | @decrement b hb hfree =>
    have hne : x.block b ≠ .gone := by simp [hb]
    have hmem := hx.counted_of hne
    refine { hx with carved := fun b' h => ?_, outside := fun b' h => ?_, counter := fun h => ?_,
                     pos := fun _ => Nat.sub_pos_of_lt hfree, mem_bits := fun t ht b' => ?_,
                     empty := fun h b' => ?_ }
    · by_cases hb' : b' = b
      · subst hb'
        simp at h
      · exact hx.carved b' (by simpa [hb'] using h)
    · show update x.block b .gone b' = .gone
      by_cases hb' : b' = b
      · subst hb'
        exact update_self _ _ _
      · rw [update_of_ne hb']
        exact hx.outside b' h
    · rw [counted_decrement hmem, Finset.card_erase_of_mem hmem, ← hx.counter h]
    · exact (hx.mem_bits t ht b').trans (update_eq_iff (by simp) (by simp [hb])).symm
    · exact (update_eq_iff (by simp) (hx.empty h b)).not.mpr (hx.empty h b')
  | claim hb hfree => exact .of_whole (by simp [Carved]) fun _ => rfl

theorem Change.sound [LawfulBracket B] (h : Change u x x') (hx : x.Sound) : x'.Sound := by
  cases h with
  | same => exact hx
  | edit h => exact h.sound hx
  | bump hp => exact .of_whole (by simp [Carved]) (hx.gone (by simp [Carved, hp]))
  | pop hp => exact .of_whole (by simp [Carved]) (hx.gone (by simp [Carved, hp]))
  | push hp => exact .of_whole (by simp [Carved]) (hx.gone (by simp [Carved, hp]))
  | hand hb =>
    refine hx.moveBlock (by simp [hb]) (by simp) hx.valid (fun t ht b' => ?_) fun _ => by simp
    exact (hx.mem_bits t ht b').trans (update_eq_iff (by simp) (by simp [hb])).symm
  | call hb =>
    refine hx.moveBlock (by simp [hb]) (by simp) hx.valid (fun t ht b' => ?_) fun _ => by simp
    exact (hx.mem_bits t ht b').trans (update_eq_iff (by simp) (by simp [hb])).symm

/-! ### What a thread sees of a slab -/

/-- The thread has carved the slab, and a block of it is where only that thread moves it. -/
def Pinned (t : T) (x : SlabState T B) : Prop :=
  x.place = .sized t ∧ ∃ b, x.block b = .slab ∨ x.block b = .thread t

namespace Edit

/-- Edits are made to slabs that a thread has, or that have blocks. -/
theorem place (h : Edit u x x') (hx : x.Sound) : x.place ≠ .fresh ∧ x.place ≠ .global := by
  have hblock : ∀ {b}, x.block b = .thread u → x.place ≠ .fresh ∧ x.place ≠ .global := by
    intro b hb
    rcases hx.carved b (by simp [hb]) with ⟨v, hp⟩ | hp <;> simp [hp]
  cases h with
  | decrement hb => exact hblock hb
  | claim hb => exact hblock hb
  | _ hp => simp [hp]

theorem place_after (h : Edit u x x') (hx : x.Sound) : x'.place ≠ .fresh ∧ x'.place ≠ .global := by
  have hplace := h.place hx
  cases h with
  | disown => simp
  | carve => simp
  | retire => simp
  | claim => simp
  | _ => exact hplace

/-- The application's blocks stay with it. -/
theorem block_application (h : Edit u x x') (hx : x.Sound) :
    x'.block b = .application ↔ x.block b = .application := by
  cases h with
  | write => exact Iff.rfl
  | link => exact Iff.rfl
  | disown => exact Iff.rfl
  | take hp hb => exact update_eq_iff (by simp) (by simp [hb])
  | put hp hb => exact update_eq_iff (by simp) (by simp [hb])
  | decrement hb => exact update_eq_iff (by simp) (by simp [hb])
  | carve hp =>
    show (if b < count x.sizeClass then BlockPlace.slab else .gone) = .application ↔ _
    rw [hx.gone (not_carved_unsized hp)]
    split <;> simp
  | retire hp helems => rcases hx.full hp helems b with hb | hb <;> simp [hb]
  | @claim b' hb' hfree =>
    by_cases hb : b = b'
    · subst hb
      simp [hb']
    · simp [hx.gone_of_one (by simp [hb']) hfree hb]

end Edit

namespace Change

/-- Nobody else moves the blocks in a thread's hands. -/
theorem block_thread (h : Change u x x') (hx : x.Sound) (hu : u ≠ t) :
    x'.block b = .thread t ↔ x.block b = .thread t := by
  have hthread : BlockPlace.thread u ≠ .thread t := fun h => hu (BlockPlace.thread.inj h)
  cases h with
  | hand hb => exact update_eq_iff (by simp) (by rw [hb]; exact hthread)
  | call hb => exact update_eq_iff hthread (by simp [hb])
  | edit h =>
    cases h with
    | take hp hb => exact update_eq_iff hthread (by simp [hb])
    | put hp hb => exact update_eq_iff (by simp) (by rw [hb]; exact hthread)
    | decrement hb => exact update_eq_iff (by simp) (by rw [hb]; exact hthread)
    | carve hp =>
      show (if b < count x.sizeClass then BlockPlace.slab else .gone) = .thread t ↔ _
      rw [hx.gone (not_carved_unsized hp)]
      split <;> simp
    | retire hp helems =>
      rcases hx.full hp helems b with hb | hb <;> simp [hb]
    | @claim b' hb' hfree =>
      by_cases hb : b = b'
      · subst hb
        rw [hb']
        exact iff_of_false (by simp) hthread
      · simp [hx.gone_of_one (by simp [hb']) hfree hb]
    | _ => exact Iff.rfl
  | _ => exact Iff.rfl

/-- Only its owner takes blocks from the bitset of a slab, or puts them there. -/
theorem block_slab (h : Change u x x') (hx : x.Sound) (hu : u ≠ t) (hp : x.place = .sized t) :
    x'.block b = .slab ↔ x.block b = .slab := by
  have hother : ∀ {p}, x.place = p → p ≠ .sized t → False := fun h hne => hne (h.symm.trans hp)
  have hsized : SlabPlace.sized u ≠ .sized t := fun h => hu (SlabPlace.sized.inj h)
  cases h with
  | hand hb => exact update_eq_iff (by simp) (by simp [hb])
  | call hb => exact update_eq_iff (by simp) (by simp [hb])
  | edit h =>
    cases h with
    | take hp' => exact (hother hp' hsized).elim
    | put hp' => exact (hother hp' hsized).elim
    | decrement hb => exact update_eq_iff (by simp) (by simp [hb])
    | carve hp' => exact (hother hp' (by simp)).elim
    | retire hp' => exact (hother hp' hsized).elim
    | @claim b' hb' hfree =>
      by_cases hb : b = b'
      · subst hb
        simp [hb']
      · simp [hx.gone_of_one (by simp [hb']) hfree hb]
    | _ => exact Iff.rfl
  | _ => exact Iff.rfl

/-- Nobody else gives a thread a slab, or takes one from it. -/
theorem place_unsized (h : Change u x x') (hx : x.Sound) (hu : u ≠ t) :
    x'.place = .unsized t ↔ x.place = .unsized t := by
  have hunsized : SlabPlace.unsized u ≠ .unsized t := fun h => hu (SlabPlace.unsized.inj h)
  cases h with
  | bump hp => exact iff_of_false hunsized (by simp [hp])
  | pop hp => exact iff_of_false hunsized (by simp [hp])
  | push hp => exact iff_of_false (by simp) (by rw [hp]; exact hunsized)
  | edit h =>
    cases h with
    | disown hp => exact iff_of_false (by simp) (by simp [hp])
    | carve hp => exact iff_of_false (by simp) (by rw [hp]; exact hunsized)
    | retire hp => exact iff_of_false hunsized (by simp [hp])
    | @claim b hb =>
      refine iff_of_false hunsized fun hp => ?_
      exact not_carved_unsized hp (hx.carved b (by simp [hb]))
    | _ => exact Iff.rfl
  | _ => exact Iff.rfl

/-- Nobody else carves a slab for a thread, or takes one from it that has a free block. -/
theorem pinned (h : Change u x x') (hx : x.Sound) (hu : u ≠ t) : x'.Pinned t ↔ x.Pinned t := by
  have hsized : SlabPlace.sized u ≠ .sized t := fun h => hu (SlabPlace.sized.inj h)
  have hplace : x.Pinned t → x'.place = .sized t := by
    rintro ⟨hp, b, hb⟩
    have hother : ∀ {p}, x.place = p → p ≠ .sized t → False := fun h hne => hne (h.symm.trans hp)
    cases h with
    | bump hp' => exact (hother hp' (by simp)).elim
    | pop hp' => exact (hother hp' (by simp)).elim
    | push hp' => exact (hother hp' (by simp)).elim
    | edit h =>
      cases h with
      | disown hp' => exact (hother hp' hsized).elim
      | carve hp' => exact (hother hp' (by simp)).elim
      | retire hp' => exact (hother hp' hsized).elim
      | @claim b' hb' hfree =>
        -- a block that is not gone is the claimer's
        by_cases hbb : b = b'
        · subst hbb
          rw [hb'] at hb
          rcases hb with hb | hb
          · cases hb
          · exact absurd (BlockPlace.thread.inj hb) hu
        · rw [hx.gone_of_one (by simp [hb']) hfree hbb] at hb
          simp at hb
      | _ => exact hp
    | _ => exact hp
  have hback : x'.place = .sized t → x.place = .sized t := by
    intro hp
    cases h with
    | bump => cases hp
    | pop => cases hp
    | push => cases hp
    | edit h =>
      cases h with
      | disown => cases hp
      | carve => exact absurd hp hsized
      | retire => cases hp
      | claim => cases hp
      | _ => exact hp
    | _ => exact hp
  constructor
  · rintro ⟨hp, b, hb⟩
    refine ⟨hback hp, b, ?_⟩
    rwa [h.block_slab hx hu (hback hp), h.block_thread hx hu] at hb
  · intro hpin
    obtain ⟨hp, b, hb⟩ := hpin
    refine ⟨hplace ⟨hp, b, hb⟩, b, ?_⟩
    rwa [h.block_slab hx hu hp, h.block_thread hx hu]

omit [DecidableEq T] in
/-- A thread writes the records of its own slabs only. -/
theorem fields (h : Change u x x') (hunsized : x.place ≠ .unsized u) (hsized : x.place ≠ .sized u) :
    x'.next = x.next ∧ x'.owner = x.owner ∧ x'.sizeClass = x.sizeClass ∧ x'.bits = x.bits := by
  cases h with
  | edit h =>
    cases h with
    | write hp => exact absurd hp hunsized
    | link hp => exact absurd hp hsized
    | take hp => exact absurd hp hsized
    | put hp => exact absurd hp hsized
    | disown hp => exact absurd hp hsized
    | _ => exact ⟨rfl, rfl, rfl, rfl⟩
  | _ => exact ⟨rfl, rfl, rfl, rfl⟩

omit [DecidableEq T] in
/-- The counter moves with a block in the thread's hands, or when the thread carves the slab. -/
theorem free (h : Change u x x') (hunsized : x.place ≠ .unsized u)
    (hthread : ∀ b, x.block b ≠ .thread u) : x'.free = x.free := by
  cases h with
  | edit h =>
    cases h with
    | carve hp => exact absurd hp hunsized
    | decrement hb => exact absurd hb (hthread _)
    | claim hb => exact absurd hb (hthread _)
    | _ => rfl
  | _ => rfl

omit [DecidableEq T] in
/-- The class of a slab with blocks is not changed. -/
theorem sizeClass (h : Change u x x') (hx : x.Carved) : x'.sizeClass = x.sizeClass := by
  cases h with
  | edit h =>
    cases h with
    | write hp => exact absurd hx (not_carved_unsized hp)
    | _ => rfl
  | _ => rfl

end Change

end SlabState

/-- How a thread stands to a slab. -/
inductive Standing
  /-- Others may write to it. -/
  | away
  | unsized
  | sized
  deriving DecidableEq

/-- A thread's copy of a slab's record. -/
structure Holding (T B : Type) [Bracket B] where
  place : Standing
  next : Option (Index B)
  owner : Option T
  sizeClass : B
  bits : BitSet (rows B)

variable {T B : Type} [Bracket B] {x x' : SlabState T B} {t u : T} {h : Holding T B}

/-- The record is that of the copy. -/
structure Holding.Agrees (h : Holding T B) (x : SlabState T B) : Prop where
  next : x.next = h.next
  owner : x.owner = h.owner
  sizeClass : x.sizeClass = h.sizeClass
  bits : x.bits = h.bits

/-- Thread `t` knows how it stands to the slab, and has a copy of the record if nobody else
writes to it. -/
structure Sees (t : T) (h : Holding T B) (x : SlabState T B) : Prop where
  unsized : h.place = .unsized ↔ x.place = .unsized t
  sized : h.place = .sized ↔ x.Pinned t
  agrees : h.place ≠ .away → h.Agrees x

theorem Sees.of_unsized (hh : h.place = .unsized) (hx : x.place = .unsized t) (ha : h.Agrees x) :
    Sees t h x where
  unsized := iff_of_true hh hx
  sized := iff_of_false (by simp [hh]) (by simp [SlabState.Pinned, hx])
  agrees _ := ha

theorem Sees.of_sized (hh : h.place = .sized) (hx : x.Pinned t) (ha : h.Agrees x) :
    Sees t h x where
  unsized := iff_of_false (by simp [hh]) (by simp [hx.1])
  sized := iff_of_true hh hx
  agrees _ := ha

theorem Sees.of_away (hh : h.place = .away) (hunsized : x.place ≠ .unsized t)
    (hsized : ¬ x.Pinned t) : Sees t h x where
  unsized := iff_of_false (by simp [hh]) hunsized
  sized := iff_of_false (by simp [hh]) hsized
  agrees h := absurd hh h

/-- It keeps knowing that, whatever the others do. -/
theorem Sees.change [DecidableEq T] (hs : Sees t h x) (hchange : x.Change u x') (hx : x.Sound)
    (hu : u ≠ t) : Sees t h x' := by
  refine ⟨hs.unsized.trans (hchange.place_unsized hx hu).symm,
    hs.sized.trans (hchange.pinned hx hu).symm, fun hplace => ?_⟩
  have hmine : x.place = .unsized t ∨ x.place = .sized t := by
    cases hp : h.place with
    | away => exact absurd hp hplace
    | unsized => exact .inl (hs.unsized.mp hp)
    | sized => exact .inr (hs.sized.mp hp).1
  have hagrees := hs.agrees hplace
  obtain ⟨hnext, howner, hclass, hbits⟩ := hchange.fields
    (by rcases hmine with hp | hp <;> simp [hp, Ne.symm hu])
    (by rcases hmine with hp | hp <;> simp [hp, Ne.symm hu])
  exact ⟨hnext.trans hagrees.next, howner.trans hagrees.owner, hclass.trans hagrees.sizeClass,
    hbits.trans hagrees.bits⟩

end Cxlalloc
