/-
Huge allocations do not overlap.

`HugeInv` is the invariant.  Its one subtle field is `order`: on a thread's list, a
range in use (`Live` or `Free`) is disjoint from the range of every descriptor in front
of it, a `Safe` one included, though the bytes of a `Safe` descriptor may have been
handed out again.  It holds because a new range always goes to the first `Safe`
descriptor of the list, or to a new head.  `find` takes the first descriptor that
contains an offset, so `order` is what makes it find the right one.
-/
import Cxlalloc.Huge
import Mathlib.Logic.Relation
import Mathlib.Data.Finset.Basic

namespace Cxlalloc

open Function
open Relation

variable {T A : Type} {h h' : Huge T A} {id t : T} {a b : A}

/-- A descriptor whose range is not in any free set. -/
def Descriptor.InUse (d : Descriptor) : Prop :=
  d.state ≠ .safe

namespace Huge

/-- The bytes of the slots a thread has claimed. -/
def claimed (h : Huge T A) (t : T) : Set ℕ :=
  {x | ∃ slot claim, h.slots slot = some claim ∧ claim.id = t ∧
    slot * sizeSlot ≤ x ∧ x < (slot + claim.slotCount) * sizeSlot}

/-- The claims do not overlap, and end at the hint. -/
structure SlotsOk (h : Huge T A) : Prop where
  le_hint : ∀ slot claim, h.slots slot = some claim → slot + claim.slotCount ≤ h.hint
  pos : ∀ slot claim, h.slots slot = some claim → 0 < claim.slotCount
  gap : ∀ slot claim k, h.slots slot = some claim → slot < k → k < slot + claim.slotCount →
    h.slots k = none
  hint_le : h.hint ≤ slotsLen

end Huge

/-- The invariant of the huge heap. -/
structure HugeInv (h : Huge T A) : Prop where
  slots : h.SlotsOk
  nodup : ∀ t, (h.list t).Nodup
  disjoint : ∀ t t' a, a ∈ h.list t → a ∈ h.list t' → t = t'
  freeClaimed : ∀ t, ↑(h.dram t).free ⊆ h.claimed t
  pos : ∀ t, ∀ a ∈ h.list t, (h.desc a).InUse → 0 < (h.desc a).size
  claimed : ∀ t, ∀ a ∈ h.list t, (h.desc a).InUse → ↑(h.desc a).range ⊆ h.claimed t
  free : ∀ t, ∀ a ∈ h.list t, (h.desc a).InUse → Disjoint (h.dram t).free (h.desc a).range
  /-- A range in use is disjoint from every range in front of it on the list. -/
  order : ∀ t, (h.list t).Pairwise fun b a =>
    (h.desc a).InUse → Disjoint (h.desc b).range (h.desc a).range

namespace HugeInv

theorem zeroed {blank : Descriptor} : HugeInv (Huge.zeroed blank : Huge T A) where
  slots := ⟨by simp [Huge.zeroed], by simp [Huge.zeroed], by simp [Huge.zeroed], Nat.zero_le _⟩
  nodup t := by simp [Huge.zeroed]
  disjoint t t' a ha := by simp [Huge.zeroed] at ha
  freeClaimed t := by simp [Huge.zeroed, Dram.default]
  pos t a ha := by simp [Huge.zeroed] at ha
  claimed t a ha := by simp [Huge.zeroed] at ha
  free t a ha := by simp [Huge.zeroed] at ha
  order t := by simp [Huge.zeroed]

/-- Hazards play no part in it. -/
theorem hazards (inv : HugeInv h) (hz : T → List ℕ) : HugeInv { h with hazards := hz } :=
  ⟨⟨inv.slots.le_hint, inv.slots.pos, inv.slots.gap, inv.slots.hint_le⟩, inv.nodup, inv.disjoint,
    inv.freeClaimed, inv.pos, inv.claimed, inv.free, inv.order⟩

/-- Two ranges in use on one list do not meet. -/
theorem ranges_disjoint (inv : HugeInv h) (ha : a ∈ h.list t) (hb : b ∈ h.list t) (hab : a ≠ b)
    (ua : (h.desc a).InUse) (ub : (h.desc b).InUse) :
    Disjoint (h.desc a).range (h.desc b).range := by
  have hpair : (h.list t).Pairwise fun b a => (h.desc b).InUse → (h.desc a).InUse →
      Disjoint (h.desc b).range (h.desc a).range := (inv.order t).imp fun hd _ ua => hd ua
  have : Std.Symm fun b a => (h.desc b).InUse → (h.desc a).InUse →
      Disjoint (h.desc b).range (h.desc a).range := ⟨fun _ _ hd ua ub => (hd ub ua).symm⟩
  exact hpair.forall ha hb hab ua ub

/-- Two threads claim different slots. -/
theorem claimed_disjoint (inv : HugeInv h) {t t' : T} {x : ℕ} (hx : x ∈ h.claimed t)
    (hx' : x ∈ h.claimed t') : t = t' := by
  obtain ⟨s, c, hs, rfl, hlo, hhi⟩ := hx
  obtain ⟨s', c', hs', rfl, hlo', hhi'⟩ := hx'
  have hlt : s < s' + c'.slotCount := Nat.lt_of_mul_lt_mul_right (lt_of_le_of_lt hlo hhi')
  have hlt' : s' < s + c.slotCount := Nat.lt_of_mul_lt_mul_right (lt_of_le_of_lt hlo' hhi)
  rcases lt_trichotomy s s' with hss | rfl | hss
  · rw [inv.slots.gap s c s' hs hss hlt'] at hs'
    cases hs'
  · rw [hs] at hs'
    rw [Option.some.inj hs']
  · rw [inv.slots.gap s' c' s hs' hss hlt] at hs
    cases hs

end HugeInv

/-! ### Finding a descriptor -/

theorem Huge.findClaim_eq {slot n : ℕ} {c : Claim T} (hs : h.slots slot = some c) (hle : slot ≤ n)
    (hgap : ∀ k, slot < k → k ≤ n → h.slots k = none) : h.findClaim n = some c.id := by
  induction n with
  | zero =>
    obtain rfl : slot = 0 := by omega
    simp [Huge.findClaim, hs]
  | succ n ih =>
    by_cases heq : slot = n + 1
    · subst heq
      simp [Huge.findClaim, hs]
    · rw [Huge.findClaim, hgap (n + 1) (by omega) le_rfl]
      exact ih (by omega) fun k hk hkn => hgap k hk (by omega)

namespace HugeInv

/-- `Shared::find` names the thread that claimed the slot. -/
theorem findOwner_eq (inv : HugeInv h) {x : ℕ} (hx : x ∈ h.claimed t) : h.findOwner x = some t := by
  obtain ⟨s, c, hs, rfl, hlo, hhi⟩ := hx
  have hpos : 0 < sizeSlot := by decide
  have hle : s ≤ x / sizeSlot := (Nat.le_div_iff_mul_le hpos).mpr hlo
  have hlt : x / sizeSlot < s + c.slotCount := (Nat.div_lt_iff_lt_mul hpos).mpr hhi
  have hhint := inv.slots.le_hint s c hs
  have hlen := inv.slots.hint_le
  rw [Huge.findOwner, if_pos (by omega)]
  exact Huge.findClaim_eq hs hle fun k hk hkn => inv.slots.gap s c k hs hk (by omega)

/-- `find` returns the descriptor whose range in use holds the offset. -/
theorem find_eq (inv : HugeInv h) (ha : a ∈ h.list t) (ua : (h.desc a).InUse) {x : ℕ}
    (hx : x ∈ (h.desc a).range) : h.find x = some a := by
  have howner := inv.findOwner_eq (inv.claimed t a ha ua hx)
  have hcontains : ∀ d : Descriptor, d.contains x = true ↔ x ∈ d.range := by
    intro d
    simp [Descriptor.contains, Descriptor.range]
  rw [Huge.find, howner]
  obtain ⟨pre, post, hl⟩ := List.append_of_mem ha
  have hord := inv.order t
  show (h.list t).find? _ = some a
  rw [hl] at hord ⊢
  rw [List.find?_append, List.find?_eq_none.mpr, Option.none_or, List.find?_cons_of_pos]
  · exact (hcontains _).mpr hx
  · intro b hb hc
    have hd := (List.pairwise_append.mp hord).2.2 b hb a (by simp) ua
    exact Finset.disjoint_left.mp hd ((hcontains _).mp hc) hx

end HugeInv

/-! ### Claiming slots -/

/-- How many slots `Huge::claim` claims. -/
def slotCount (size : ℕ) : ℕ :=
  nextMultipleOf size sizeSlot / sizeSlot

theorem le_slotCount (size : ℕ) : size ≤ slotCount size * sizeSlot := by
  have hpos : 0 < sizeSlot := by decide
  rw [slotCount, nextMultipleOf, Nat.mul_div_cancel _ hpos]
  have hdiv := Nat.div_add_mod (size + sizeSlot - 1) sizeSlot
  have hmod := Nat.mod_lt (size + sizeSlot - 1) hpos
  rw [Nat.mul_comm] at hdiv
  omega

theorem slotCount_pos {size : ℕ} (hsize : 0 < size) : 0 < slotCount size := by
  refine Nat.pos_of_ne_zero fun h0 => ?_
  have := le_slotCount size
  rw [h0] at this
  omega

theorem HugeInv.slot_hint (inv : HugeInv h) : h.slots h.hint = none := by
  cases hs : h.slots h.hint with
  | none => rfl
  | some c =>
    have := inv.slots.le_hint _ c hs
    have := inv.slots.pos _ c hs
    omega

theorem HugeInv.claimed_lt (inv : HugeInv h) {x : ℕ} (hx : x ∈ h.claimed t) :
    x < h.hint * sizeSlot := by
  obtain ⟨s, c, hs, -, -, hhi⟩ := hx
  exact lt_of_lt_of_le hhi (Nat.mul_le_mul_right _ (inv.slots.le_hint s c hs))

/-- The heap after `Huge::claim` of `n` slots. -/
def Huge.grown [DecidableEq T] (h : Huge T A) (id : T) (n : ℕ) : Huge T A :=
  { h with
    slots := update h.slots h.hint (some { id := id, slotCount := n })
    hint := h.hint + n
    dram := update h.dram id ((h.dram id).claim h.hint n) }

theorem Huge.grown_slots_self [DecidableEq T] {n : ℕ} :
    (h.grown id n).slots h.hint = some { id := id, slotCount := n } :=
  update_self _ _ _

theorem Huge.grown_slots_of_ne [DecidableEq T] {n s : ℕ} (hs : s ≠ h.hint) :
    (h.grown id n).slots s = h.slots s :=
  update_of_ne hs _ _

theorem HugeInv.mem_claimed_grown [DecidableEq T] (inv : HugeInv h) {n x : ℕ} :
    x ∈ (h.grown id n).claimed t ↔ x ∈ h.claimed t ∨
      (t = id ∧ h.hint * sizeSlot ≤ x ∧ x < (h.hint + n) * sizeSlot) := by
  constructor
  · rintro ⟨s, c, hs, rfl, hlo, hhi⟩
    by_cases heq : s = h.hint
    · subst heq
      rw [Huge.grown_slots_self] at hs
      obtain rfl := Option.some.inj hs
      exact .inr ⟨rfl, hlo, hhi⟩
    · rw [Huge.grown_slots_of_ne heq] at hs
      exact .inl ⟨s, c, hs, rfl, hlo, hhi⟩
  · rintro (⟨s, c, hs, rfl, hlo, hhi⟩ | ⟨rfl, hlo, hhi⟩)
    · have hne : s ≠ h.hint := by
        rintro rfl
        rw [inv.slot_hint] at hs
        cases hs
      exact ⟨s, c, by rw [Huge.grown_slots_of_ne hne, hs], rfl, hlo, hhi⟩
    · exact ⟨h.hint, _, Huge.grown_slots_self, rfl, hlo, hhi⟩

theorem HugeInv.grown [DecidableEq T] (inv : HugeInv h) {n : ℕ} (hpos : 0 < n)
    (hle : h.hint + n ≤ slotsLen) : HugeInv (h.grown id n) where
  slots := by
    have hcases : ∀ s c, (h.grown id n).slots s = some c →
        (s = h.hint ∧ c.slotCount = n) ∨ (s ≠ h.hint ∧ h.slots s = some c) := by
      intro s c hs
      by_cases heq : s = h.hint
      · subst heq
        rw [Huge.grown_slots_self] at hs
        obtain rfl := Option.some.inj hs
        exact .inl ⟨rfl, rfl⟩
      · rw [Huge.grown_slots_of_ne heq] at hs
        exact .inr ⟨heq, hs⟩
    refine ⟨?_, ?_, ?_, hle⟩
    · intro s c hs
      show s + c.slotCount ≤ h.hint + n
      rcases hcases s c hs with ⟨rfl, rfl⟩ | ⟨-, hs⟩
      · exact le_rfl
      · have := inv.slots.le_hint s c hs
        omega
    · intro s c hs
      rcases hcases s c hs with ⟨-, rfl⟩ | ⟨-, hs⟩
      · exact hpos
      · exact inv.slots.pos s c hs
    · intro s c k hs hk hlt
      rcases hcases s c hs with ⟨rfl, rfl⟩ | ⟨-, hs⟩
      · rw [Huge.grown_slots_of_ne (by omega)]
        cases hk' : h.slots k with
        | none => rfl
        | some c' =>
          have := inv.slots.le_hint k c' hk'
          omega
      · have := inv.slots.le_hint s c hs
        rw [Huge.grown_slots_of_ne (by omega)]
        exact inv.slots.gap s c k hs hk hlt
  nodup := inv.nodup
  disjoint := inv.disjoint
  freeClaimed t x hx := by
    rw [inv.mem_claimed_grown]
    by_cases heq : t = id
    · subst heq
      simp only [Huge.grown, update_self, Dram.claim, Dram.uncover, Finset.coe_union,
        Set.mem_union, Finset.mem_coe, Finset.mem_Ico] at hx
      rcases hx with hx | ⟨hlo, hhi⟩
      · exact .inl (inv.freeClaimed t hx)
      · exact .inr ⟨rfl, hlo, by rw [Nat.add_mul]; exact hhi⟩
    · simp only [Huge.grown, update_of_ne heq] at hx
      exact .inl (inv.freeClaimed t hx)
  pos := inv.pos
  claimed t a ha ua x hx := inv.mem_claimed_grown.mpr (.inl (inv.claimed t a ha ua hx))
  free t a ha ua := by
    by_cases heq : t = id
    · subst heq
      simp only [Huge.grown, update_self, Dram.claim, Dram.uncover, Finset.disjoint_union_left]
      refine ⟨inv.free t a ha ua, Finset.disjoint_right.mpr fun x hx hnew => ?_⟩
      have := inv.claimed_lt (inv.claimed t a ha ua hx)
      have := (Finset.mem_Ico.mp hnew).1
      omega
    · simp only [Huge.grown, update_of_ne heq]
      exact inv.free t a ha ua
  order := inv.order

section Claim

variable [FinEnum T]

/-- The slot at the hint is free, so the first attempt to claim succeeds if there is
room at all. -/
theorem HugeInv.claim_eq (inv : HugeInv h) {size : ℕ} :
    h.claim id size =
      if h.hint + slotCount size ≤ slotsLen then .ok (h.grown id (slotCount size))
      else .error .outOfAddressSpace := by
  rw [Huge.claim, ← slotCount, Huge.claimSlot, inv.slot_hint]
  by_cases hle : h.hint + slotCount size ≤ slotsLen
  · rw [if_pos hle, if_pos hle]
    rfl
  · rw [if_neg hle, if_neg hle]
    rfl

end Claim

/-! ### Ranges from the free set -/

/-- The first fit is free. -/
theorem Dram.firstFit_subset {free : Finset ℕ} {size offset : ℕ}
    (hf : firstFit free size = some offset) : Finset.Ico offset (offset + size) ⊆ free := by
  rw [firstFit] at hf
  split at hf
  · rename_i hne
    obtain rfl := Option.some.inj hf
    have := Finset.min'_mem _ hne
    exact (Finset.mem_filter.mp this).2.2
  · cases hf

/-- A free interval that is long enough makes the search succeed: extended downwards as
far as it goes, it is a maximal one. -/
theorem Dram.firstFit_ne_none {free : Finset ℕ} {size : ℕ} (lower : ℕ) (hsize : 0 < size)
    (hsub : Finset.Ico lower (lower + size) ⊆ free) : firstFit free size ≠ none := by
  classical
  have hex : ∃ lo, lo ≤ lower ∧ Finset.Ico lo (lower + size) ⊆ free := ⟨lower, le_rfl, hsub⟩
  obtain ⟨hle, hlo⟩ := Nat.find_spec hex
  set lo := Nat.find hex with hdef
  have hmem : lo ∈ fits free size := by
    refine Finset.mem_filter.mpr ⟨hlo (Finset.mem_Ico.mpr ⟨le_rfl, by omega⟩), ?_, ?_⟩
    · rintro below hbelow heq
      refine Nat.find_min hex (m := below) (by omega) ⟨by omega, fun x hx => ?_⟩
      rw [Finset.mem_Ico] at hx
      by_cases hxb : x = below
      · exact hxb ▸ hbelow
      · exact hlo (Finset.mem_Ico.mpr ⟨by omega, hx.2⟩)
    · exact fun x hx => hlo (by rw [Finset.mem_Ico] at hx ⊢; omega)
  rw [firstFit, dif_pos ⟨lo, hmem⟩]
  simp

theorem Dram.allocate_eq {d : Dram} {size : ℕ} :
    d.allocate size = match firstFit d.free size with
      | none => .ok none
      | some offset => .ok (some
          ({ index := d.index + 1, offset := offset, size := size, state := .live },
            { free := d.free \ Finset.Ico offset (offset + size), index := d.index + 1 })) := by
  rw [allocate]
  cases hf : firstFit d.free size with
  | none => rfl
  | some offset => simp [cover, firstFit_subset hf]

/-- What `Huge::allocate` has in hand before it writes the descriptor: a live range that
was free, is so no more, and meets no range in use. -/
structure HugeInv.Reserved [FinEnum T] (h : Huge T A) (id : T) (size : ℕ) (d : Descriptor)
    (h' : Huge T A) : Prop where
  inv : HugeInv h'
  list : h'.list = h.list
  desc : h'.desc = h.desc
  hazards : h'.hazards = h.hazards
  live : d.state = .live
  size : d.size = size
  claimed : ↑d.range ⊆ h'.claimed id
  free : Disjoint (h'.dram id).free d.range
  ranges : ∀ a ∈ h'.list id, (h'.desc a).InUse → Disjoint (h'.desc a).range d.range


variable {pre post : List A}

section Allocate

variable [FinEnum T] {d : Descriptor} {size : ℕ}

/-- Taking a range out of the free set of a thread. -/
theorem HugeInv.reserve (inv : HugeInv h) {offset index : ℕ} {taken : Dram}
    (htaken : taken.free = (h.dram id).free \ Finset.Ico offset (offset + size))
    (hsub : Finset.Ico offset (offset + size) ⊆ (h.dram id).free) :
    Reserved h id size { index := index, offset := offset, size := size, state := .live }
      { h with dram := update h.dram id taken } where
  inv := by
    have hfree : ∀ t, (update h.dram id taken t).free ⊆ (h.dram t).free := by
      intro t
      by_cases heq : t = id
      · subst heq
        rw [update_self, htaken]
        exact Finset.sdiff_subset
      · rw [update_of_ne heq]
    exact {
      slots := ⟨inv.slots.le_hint, inv.slots.pos, inv.slots.gap, inv.slots.hint_le⟩
      nodup := inv.nodup
      disjoint := inv.disjoint
      freeClaimed := fun t x hx => inv.freeClaimed t (hfree t hx)
      pos := inv.pos
      claimed := inv.claimed
      free := fun t a ha ua => (inv.free t a ha ua).mono_left (hfree t)
      order := inv.order }
  list := rfl
  desc := rfl
  hazards := rfl
  live := rfl
  size := rfl
  claimed x hx := inv.freeClaimed id (hsub hx)
  free := by
    simp only [update_self, htaken]
    exact Finset.sdiff_disjoint
  ranges a ha ua := ((inv.free id a ha ua).mono_left hsub).symm

/-- A round of the loop claims slots, or takes the first range that fits. -/
theorem Huge.allocateRange_succ {n : ℕ} (hal : h.allocateRange id size (n + 1) = .ok (d, h')) :
    (∃ h₁, h.claim id size = .ok h₁ ∧ h₁.allocateRange id size n = .ok (d, h')) ∨
      ∃ offset, Dram.firstFit (h.dram id).free size = some offset ∧
        d = { index := (h.dram id).index + 1, offset := offset, size := size, state := .live } ∧
        h' = { h with
          dram := update h.dram id
            { free := (h.dram id).free \ Finset.Ico offset (offset + size),
              index := (h.dram id).index + 1 } } := by
  rw [Huge.allocateRange, Dram.allocate_eq] at hal
  cases hf : Dram.firstFit (h.dram id).free size with
  | none =>
    rw [hf, ok_bind] at hal
    exact .inl (bind_eq_ok hal)
  | some offset =>
    rw [hf, ok_bind] at hal
    obtain ⟨rfl, rfl⟩ := ok_inj hal
    exact .inr ⟨offset, rfl, rfl, rfl⟩

theorem HugeInv.claim_ok (inv : HugeInv h) (hsize : 0 < size) (hx : h.claim id size = .ok h') :
    h' = h.grown id (slotCount size) ∧ HugeInv h' := by
  rw [inv.claim_eq] at hx
  split_ifs at hx with hle
  obtain rfl := Except.ok.inj hx
  exact ⟨rfl, inv.grown (slotCount_pos hsize) hle⟩

theorem HugeInv.allocateRange (inv : HugeInv h) {n : ℕ} (hsize : 0 < size)
    (hal : h.allocateRange id size n = .ok (d, h')) : Reserved h id size d h' := by
  induction n generalizing h with
  | zero => cases hal
  | succ n ih =>
    rcases Huge.allocateRange_succ hal with ⟨h₁, hclaim, hal⟩ | ⟨offset, hf, rfl, rfl⟩
    · obtain ⟨rfl, inv₁⟩ := inv.claim_ok hsize hclaim
      have hres := ih inv₁ hal
      exact { hres with list := hres.list, desc := hres.desc, hazards := hres.hazards }
    · exact inv.reserve rfl (Dram.firstFit_subset hf)

/-- Two rounds are enough: the slots a first round claims hold the range. -/
theorem HugeInv.allocateRange_two (inv : HugeInv h) (id : T) (hsize : 0 < size) :
    (∃ d h', h.allocateRange id size 2 = .ok (d, h') ∧ h'.hint ≤ h.hint + slotCount size) ∨
      h.allocateRange id size 2 = .error .outOfAddressSpace ∧
        slotsLen < h.hint + slotCount size := by
  rw [Huge.allocateRange, Dram.allocate_eq]
  cases hf : Dram.firstFit (h.dram id).free size with
  | some offset => exact .inl ⟨_, _, rfl, Nat.le_add_right _ _⟩
  | none =>
    rw [ok_bind, inv.claim_eq]
    by_cases hle : h.hint + slotCount size ≤ slotsLen
    · rw [if_pos hle, ok_bind, Huge.allocateRange, Dram.allocate_eq]
      have hbytes := le_slotCount size
      have hfit : Dram.firstFit ((h.grown id (slotCount size)).dram id).free size ≠ none := by
        refine Dram.firstFit_ne_none (h.hint * sizeSlot) hsize fun x hx => ?_
        simp only [Huge.grown, update_self, Dram.claim, Dram.uncover, Finset.mem_union,
          Finset.mem_Ico] at hx ⊢
        omega
      obtain ⟨offset, hoffset⟩ := Option.ne_none_iff_exists'.mp hfit
      rw [hoffset, ok_bind]
      exact .inl ⟨_, _, rfl, le_rfl⟩
    · rw [if_neg hle, error_bind]
      exact .inr ⟨rfl, by omega⟩

/-- Writing the descriptor of the reserved range to `out`, on a list where everything in
front of `out` is in use. -/
theorem HugeInv.Reserved.place [DecidableEq A] (res : Reserved h id size d h') (hsize : 0 < size)
    {out : A}
    (hsub : (pre ++ post).Sublist (h'.list id)) (hout : out ∉ pre ++ post)
    (hpre : ∀ b ∈ pre, (h'.desc b).InUse) (hother : ∀ t, t ≠ id → out ∉ h'.list t) :
    HugeInv { h' with
      desc := update h'.desc out d
      list := update h'.list id (pre ++ out :: post) } := by
  have hdesc : ∀ {a}, a ≠ out → update h'.desc out d a = h'.desc a := fun ha => update_of_ne ha _ _
  have hne : ∀ {a}, a ∈ pre ++ post → a ≠ out := fun ha heq => hout (heq ▸ ha)
  -- a member of a list afterwards is `out` on the list of `id`, or an old member
  have hold : ∀ t, ∀ a ∈ update h'.list id (pre ++ out :: post) t,
      (t = id ∧ a = out) ∨ (a ≠ out ∧ a ∈ h'.list t) := by
    intro t a ha
    by_cases ht : t = id
    · subst ht
      rw [update_self] at ha
      by_cases heq : a = out
      · exact .inl ⟨rfl, heq⟩
      · refine .inr ⟨heq, hsub.subset ?_⟩
        rw [List.mem_append, List.mem_cons] at ha
        rw [List.mem_append]
        tauto
    · rw [update_of_ne ht] at ha
      exact .inr ⟨fun heq => hother t ht (heq ▸ ha), ha⟩
  have hperm : (pre ++ out :: post).Perm (out :: (pre ++ post)) := List.perm_middle
  constructor
  case slots =>
    exact ⟨res.inv.slots.le_hint, res.inv.slots.pos, res.inv.slots.gap, res.inv.slots.hint_le⟩
  case freeClaimed => exact res.inv.freeClaimed
  case nodup =>
    intro t
    by_cases ht : t = id
    · subst ht
      simp only [update_self]
      exact hperm.nodup_iff.mpr (List.nodup_cons.mpr ⟨hout, hsub.nodup (res.inv.nodup t)⟩)
    · simp only [update_of_ne ht]
      exact res.inv.nodup t
  case disjoint =>
    intro t t' a ha ha'
    rcases hold t a ha with ⟨rfl, rfl⟩ | ⟨hne, ha⟩ <;> rcases hold t' a ha' with ⟨rfl, heq⟩ | ⟨hne', ha'⟩
    · rfl
    · exact absurd rfl hne'
    · exact absurd heq hne
    · exact res.inv.disjoint t t' a ha ha'
  case pos =>
    intro t a ha ua
    rcases hold t a ha with ⟨rfl, rfl⟩ | ⟨hne, ha⟩
    · simp only [update_self, res.size, hsize]
    · simp only [hdesc hne] at ua ⊢
      exact res.inv.pos t a ha ua
  case claimed =>
    intro t a ha ua
    rcases hold t a ha with ⟨rfl, rfl⟩ | ⟨hne, ha⟩
    · simp only [update_self]
      exact res.claimed
    · simp only [hdesc hne] at ua ⊢
      exact res.inv.claimed t a ha ua
  case free =>
    intro t a ha ua
    rcases hold t a ha with ⟨rfl, rfl⟩ | ⟨hne, ha⟩
    · simp only [update_self]
      exact res.free
    · simp only [hdesc hne] at ua ⊢
      exact res.inv.free t a ha ua
  case order =>
    intro t
    by_cases ht : t = id
    · subst ht
      simp only [update_self]
      have hpair : (pre ++ post).Pairwise fun b a => (update h'.desc out d a).InUse →
          Disjoint (update h'.desc out d b).range (update h'.desc out d a).range := by
        refine ((res.inv.order t).sublist hsub).imp_of_mem fun hb ha hba => ?_
        rw [hdesc (hne ha), hdesc (hne hb)]
        exact hba
      obtain ⟨hppre, hppost, hcross⟩ := List.pairwise_append.mp hpair
      refine List.pairwise_append.mpr ⟨hppre, List.pairwise_cons.mpr ⟨fun a ha ua => ?_, hppost⟩,
        fun b hb a ha => ?_⟩
      · have hmem : a ∈ pre ++ post := List.mem_append_right _ ha
        rw [hdesc (hne hmem)] at ua
        rw [update_self, hdesc (hne hmem)]
        exact (res.ranges a (hsub.subset hmem) ua).symm
      · rcases List.mem_cons.mp ha with rfl | ha
        · intro _
          have hmem : b ∈ pre ++ post := List.mem_append_left _ hb
          rw [update_self, hdesc (hne hmem)]
          exact res.ranges b (hsub.subset hmem) (hpre b hb)
        · exact hcross b hb a ha
    · simp only [update_of_ne ht]
      refine (res.inv.order t).imp_of_mem fun hb ha hba => ?_
      rw [hdesc fun heq => hother t ht (heq ▸ ha), hdesc fun heq => hother t ht (heq ▸ hb)]
      exact hba

end Allocate

/-! ### Hazards -/

section Hazards

variable [FinEnum T]

theorem swapRemove_length_le {hazards : List ℕ} {offset : ℕ} :
    (swapRemove hazards offset).length ≤ hazards.length := by
  rw [swapRemove]
  split
  · simp
  · exact le_rfl

theorem Huge.refreshOne_eq (h : Huge T A) (id : T) (a : A) :
    ∃ hz, h.refreshOne id a = { h with hazards := hz } ∧
    ∀ t, (hz t).length ≤ (h.hazards t).length := by
  rw [Huge.refreshOne]
  split
  · refine ⟨_, rfl, fun t => ?_⟩
    by_cases ht : t = id
    · subst ht
      rw [update_self]
      exact swapRemove_length_le
    · rw [update_of_ne ht]
  · exact ⟨h.hazards, rfl, fun _ => le_rfl⟩

/-- `refresh` changes nothing but hazards, and adds none. -/
theorem Huge.refresh_eq (h : Huge T A) (id : T) : ∃ hz, h.refresh id = { h with hazards := hz } ∧
    ∀ t, (hz t).length ≤ (h.hazards t).length := by
  have hfold : ∀ (l : List A) (g : Huge T A), ∃ hz, l.foldl (Huge.refreshOne id) g =
      { g with hazards := hz } ∧ ∀ t, (hz t).length ≤ (g.hazards t).length := by
    intro l
    induction l with
    | nil => exact fun g => ⟨g.hazards, rfl, fun _ => le_rfl⟩
    | cons a l ih =>
      intro g
      obtain ⟨hz, hone, hle⟩ := Huge.refreshOne_eq g id a
      obtain ⟨hz', hrest, hle'⟩ := ih { g with hazards := hz }
      exact ⟨hz', by rw [List.foldl_cons, hone, hrest], fun t => (hle' t).trans (hle t)⟩
  exact hfold _ h

/-- `insert` changes nothing but hazards. -/
theorem Huge.insertHazard_eq {validate : Bool} {offset : ℕ}
    (hins : h.insertHazard validate id offset = .ok h') : ∃ hz, h' = { h with hazards := hz } := by
  rw [Huge.insertHazard] at hins
  split at hins
  · cases hins
  · split at hins
    · exact ⟨_, (Except.ok.inj hins).symm⟩
    · cases hins

/-- Without `validate`, `insert` succeeds while there is room. -/
theorem Huge.insertHazard_returns {offset : ℕ} (hroom : (h.hazards id).length < hazardsLen) :
    h.insertHazard false id offset =
      .ok { h with hazards := update h.hazards id (h.hazards id ++ [offset]) } := by
  rw [Huge.insertHazard, Bool.false_and, if_neg Bool.false_ne_true, if_pos hroom]

end Hazards

/-! ### Reusing descriptors -/

/-- What `reuse` may do to a heap: some `Free` descriptors become `Safe`. -/
structure Huge.Trimmed (h h' : Huge T A) : Prop where
  hint : h'.hint = h.hint
  hazards : h'.hazards = h.hazards
  list : h'.list = h.list
  desc : ∀ a, h'.desc a = h.desc a ∨ (h.desc a).state = .free ∧
    h'.desc a = { h.desc a with state := .safe }

theorem Huge.Trimmed.refl : h.Trimmed h :=
  ⟨rfl, rfl, rfl, fun _ => .inl rfl⟩

theorem Huge.Trimmed.trans {h'' : Huge T A} (hab : h.Trimmed h') (hbc : h'.Trimmed h'') :
    h.Trimmed h'' := by
  refine ⟨hbc.hint.trans hab.hint, hbc.hazards.trans hab.hazards, hbc.list.trans hab.list,
    fun a => ?_⟩
  rcases hab.desc a with ha | ⟨hfree, ha⟩
  · rw [← ha]
    exact hbc.desc a
  · refine .inr ⟨hfree, ?_⟩
    rcases hbc.desc a with hb | ⟨hfree', -⟩
    · rw [hb, ha]
    · rw [ha] at hfree'
      cases hfree'

/-- A live descriptor stays as it is. -/
theorem Huge.Trimmed.live (htrim : h.Trimmed h') (hlive : (h.desc a).state = .live) :
    h'.desc a = h.desc a := by
  rcases htrim.desc a with ha | ⟨hfree, -⟩
  · exact ha
  · rw [hlive] at hfree
    cases hfree

theorem Descriptor.range_update [DecidableEq A] {desc : A → Descriptor} {s : DescriptorState} :
    (update desc a { desc a with state := s } b).range = (desc b).range := by
  by_cases hb : b = a
  · subst hb
    rw [update_self]
    rfl
  · rw [update_of_ne hb]

section Reuse

variable [FinEnum T] [DecidableEq A]

/-- The range of a `Free` descriptor goes back to the free set of its owner. -/
theorem HugeInv.retire (inv : HugeInv h) (ha : a ∈ h.list id) (hfree : (h.desc a).state = .free) :
    HugeInv { h with
      dram := update h.dram id ((h.dram id).uncover (h.desc a).offset (h.desc a).size)
      desc := update h.desc a { h.desc a with state := .safe } } := by
  have ua : (h.desc a).InUse := by
    rw [Descriptor.InUse, hfree]
    decide
  have hinuse : ∀ {b}, (update h.desc a { h.desc a with state := .safe } b).InUse →
      b ≠ a ∧ (h.desc b).InUse := by
    intro b hb
    by_cases heq : b = a
    · subst heq
      rw [update_self] at hb
      exact absurd rfl hb
    · rw [update_of_ne heq] at hb
      exact ⟨heq, hb⟩
  constructor
  case slots =>
    exact ⟨inv.slots.le_hint, inv.slots.pos, inv.slots.gap, inv.slots.hint_le⟩
  case nodup => exact inv.nodup
  case disjoint => exact inv.disjoint
  case freeClaimed =>
    intro t x hx
    by_cases ht : t = id
    · subst ht
      simp only [update_self, Dram.uncover, Finset.coe_union, Set.mem_union] at hx
      rcases hx with hx | hx
      · exact inv.freeClaimed t hx
      · exact inv.claimed t a ha ua hx
    · simp only [update_of_ne ht] at hx
      exact inv.freeClaimed t hx
  case pos =>
    intro t b hb ub
    obtain ⟨hne, ub⟩ := hinuse ub
    simp only [update_of_ne hne]
    exact inv.pos t b hb ub
  case claimed =>
    intro t b hb ub
    obtain ⟨-, ub⟩ := hinuse ub
    rw [Descriptor.range_update]
    exact inv.claimed t b hb ub
  case free =>
    intro t b hb hsafe
    obtain ⟨hne, ub⟩ := hinuse hsafe
    rw [Descriptor.range_update]
    by_cases ht : t = id
    · subst ht
      simp only [update_self, Dram.uncover, Finset.disjoint_union_left]
      exact ⟨inv.free t b hb ub, inv.ranges_disjoint ha hb hne.symm ua ub⟩
    · simp only [update_of_ne ht]
      exact inv.free t b hb ub
  case order =>
    intro t
    refine (inv.order t).imp fun hcb ub => ?_
    rw [Descriptor.range_update, Descriptor.range_update]
    exact hcb (hinuse ub).2

/-- `reuse` for one descriptor: afterwards it is in use, or `Safe` and a candidate. -/
theorem HugeInv.reuseOne (inv : HugeInv h) (ha : a ∈ h.list id) (safe : Option A) :
    ∃ h' safe', Huge.reuseOne id (h, safe) a = (h', safe') ∧ HugeInv h' ∧ h.Trimmed h' ∧
      (∀ b, b ≠ a → h'.desc b = h.desc b) ∧
      ((h'.desc a).InUse ∧ safe' = safe ∨ (h'.desc a).state = .safe ∧ safe' = safe.or (some a)) := by
  cases hs : (h.desc a).state with
  | live =>
    exact ⟨h, safe, by simp [Huge.reuseOne, hs], inv, .refl, fun _ _ => rfl,
      .inl ⟨by simp [Descriptor.InUse, hs], rfl⟩⟩
  | safe =>
    exact ⟨h, _, by simp only [Huge.reuseOne, hs], inv, .refl, fun _ _ => rfl, .inr ⟨hs, rfl⟩⟩
  | free =>
    by_cases hz : h.hazardous (h.desc a).offset
    · exact ⟨h, safe, by simp [Huge.reuseOne, hs, hz], inv, .refl, fun _ _ => rfl,
        .inl ⟨by simp [Descriptor.InUse, hs], rfl⟩⟩
    · refine ⟨_, _, by simp only [Huge.reuseOne, hs, if_neg hz], inv.retire ha hs,
        ⟨rfl, rfl, rfl, fun b => ?_⟩, fun b hb => update_of_ne hb _ _, .inr ⟨by simp, rfl⟩⟩
      by_cases hb : b = a
      · subst hb
        exact .inr ⟨hs, update_self _ _ _⟩
      · exact .inl (update_of_ne hb _ _)

/-- The fold of `reuse`: the first `Safe` descriptor is found, and everything in front of
it is in use. -/
theorem HugeInv.reuse_fold {l : List A} (inv : HugeInv h) (hl : ∀ a ∈ l, a ∈ h.list id)
    (hnodup : l.Nodup) (safe : Option A) :
    ∃ h' safe', l.foldl (Huge.reuseOne id) (h, safe) = (h', safe') ∧ HugeInv h' ∧ h.Trimmed h' ∧
      (∀ b, b ∉ l → h'.desc b = h.desc b) ∧
      (∀ b, safe = some b → safe' = some b) ∧
      (safe = none → ∀ b, safe' = some b → ∃ pre post, l = pre ++ b :: post ∧
        (h'.desc b).state = .safe ∧ ∀ c ∈ pre, (h'.desc c).InUse) := by
  induction l generalizing h safe with
  | nil =>
    refine ⟨h, safe, rfl, inv, .refl, fun _ _ => rfl, fun _ hb => hb, fun hnone b hb => ?_⟩
    rw [hnone] at hb
    cases hb
  | cons a l ih =>
    obtain ⟨hal, hnodup⟩ := List.nodup_cons.mp hnodup
    obtain ⟨h₁, safe₁, hone, inv₁, htrim₁, hframe₁, hcase⟩ :=
      inv.reuseOne (hl a List.mem_cons_self) safe
    obtain ⟨h₂, safe₂, hfold, inv₂, htrim₂, hframe₂, hsome, hnone⟩ :=
      ih inv₁ (fun b hb => htrim₁.list ▸ hl b (List.mem_cons_of_mem a hb)) hnodup safe₁
    refine ⟨h₂, safe₂, by rw [List.foldl_cons, hone, hfold], inv₂, htrim₁.trans htrim₂,
      fun b hb => ?_, fun b hb => ?_, fun hempty b hb => ?_⟩
    · rw [List.mem_cons, not_or] at hb
      rw [hframe₂ b hb.2, hframe₁ b hb.1]
    · rcases hcase with ⟨-, rfl⟩ | ⟨-, rfl⟩
      · exact hsome b hb
      · exact hsome b (by rw [hb, Option.some_or])
    · subst hempty
      have ha₂ := hframe₂ a hal
      rcases hcase with ⟨ua, rfl⟩ | ⟨hsafe, rfl⟩
      · obtain ⟨pre, post, rfl, hb, hpre⟩ := hnone rfl b hb
        refine ⟨a :: pre, post, rfl, hb, fun c hc => ?_⟩
        rcases List.mem_cons.mp hc with rfl | hc
        · rw [ha₂]
          exact ua
        · exact hpre c hc
      · obtain rfl : a = b := Option.some.inj ((hsome a rfl).symm.trans hb)
        exact ⟨[], l, rfl, by rw [ha₂, hsafe], by simp⟩

/-- **What `reuse` returns.**  The place of the new descriptor is the first one on the list
that is not in use. -/
theorem HugeInv.reuse (inv : HugeInv h) (id : T) :
    ∃ h' safe, h.reuse id = (h', safe) ∧ HugeInv h' ∧ h.Trimmed h' ∧
      ∀ a, safe = some a → ∃ pre post, h'.list id = pre ++ a :: post ∧
        (h'.desc a).state = .safe ∧ ∀ b ∈ pre, (h'.desc b).InUse := by
  obtain ⟨h', safe, hfold, inv', htrim, -, -, hsafe⟩ :=
    inv.reuse_fold (fun _ ha => ha) (inv.nodup id) none
  exact ⟨h', safe, hfold, inv', htrim, fun a ha => by rw [htrim.list]; exact hsafe rfl a ha⟩

end Reuse

/-! ### The calls -/

section Calls

variable [FinEnum T] [DecidableEq A] {validate : Bool} {size offset : ℕ} {out : A}

/-- What an allocation does to the descriptors: `out` becomes live, the others that were
live stay so. -/
structure HugeInv.Placed (h : Huge T A) (id : T) (offset : ℕ) (h' : Huge T A) : Prop where
  inv : HugeInv h'
  new : ∃ a ∈ h'.list id, (h'.desc a).state = .live ∧ (h'.desc a).offset = offset
  old : ∀ t, ∀ a ∈ h.list t, (h.desc a).state = .live → a ∈ h'.list t ∧ h'.desc a = h.desc a

variable {reuse : Bool}

/-- The heap after `allocate`, up to hazards. -/
theorem Huge.allocate_ok (hal : h.allocate validate id size out reuse = .ok (offset, h')) :
    ∃ hz d h₁ hz', Huge.allocateRange id size 2 { h with hazards := hz } = .ok (d, h₁) ∧
      d.offset = offset ∧ h' = { h₁ with
        desc := update h₁.desc out d
        list := update h₁.list id (if reuse then h₁.list id else out :: h₁.list id)
        hazards := hz' } := by
  obtain ⟨hz, hrefresh, -⟩ := Huge.refresh_eq h id
  rw [Huge.allocate, hrefresh] at hal
  obtain ⟨⟨d, h₁⟩, hrange, hal⟩ := bind_eq_ok hal
  dsimp only at hal
  split at hal
  all_goals
    rename_i hreuse
    obtain ⟨h₂, hins, hal⟩ := bind_eq_ok hal
    obtain ⟨rfl, rfl⟩ := ok_inj hal
    obtain ⟨hz', rfl⟩ := Huge.insertHazard_eq hins
    refine ⟨hz, d, h₁, hz', hrange, rfl, ?_⟩
    simp [hreuse]

/-- A new descriptor goes to the front of the list. -/
theorem HugeInv.allocate_list (inv : HugeInv h) (hsize : 0 < size)
    (hal : h.allocate validate id size out reuse = .ok (offset, h')) :
    h'.list = if reuse then h.list else update h.list id (out :: h.list id) := by
  obtain ⟨hz, d, h₁, hz', hrange, rfl, rfl⟩ := Huge.allocate_ok hal
  have hl₁ : h₁.list = h.list := ((inv.hazards hz).allocateRange hsize hrange).list
  cases reuse with
  | true => simp [hl₁]
  | false => simp [hl₁]

/-- A place for a new descriptor: on the list with everything in front of it in use, or on no
list yet. -/
structure HugeInv.Vacant (h : Huge T A) (id : T) (out : A) (reuse : Bool) (pre post : List A) :
    Prop where
  list : (if reuse then h.list id else out :: h.list id) = pre ++ out :: post
  front : ∀ b ∈ pre, (h.desc b).InUse
  owner : ∀ t, out ∈ h.list t → t = id
  safe : ∀ t, out ∈ h.list t → (h.desc out).state = .safe
  sub : (pre ++ post).Sublist (h.list id)
  new : out ∉ pre ++ post

omit [FinEnum T] [DecidableEq A] in
/-- The first `Safe` descriptor is vacant. -/
theorem HugeInv.vacant_reused (inv : HugeInv h)
    (hl : h.list id = pre ++ out :: post) (hs : (h.desc out).state = .safe)
    (hpre : ∀ b ∈ pre, (h.desc b).InUse) : Vacant h id out true pre post := by
  have hout : out ∈ h.list id := by simp [hl]
  have hnodup := inv.nodup id
  rw [hl] at hnodup
  refine ⟨hl, hpre, fun t ht => inv.disjoint t id out ht hout, fun _ _ => hs, ?_,
    (List.nodup_cons.mp (List.perm_middle.nodup_iff.mp hnodup)).1⟩
  rw [hl]
  exact (List.Sublist.refl pre).append (List.sublist_cons_self out post)

omit [FinEnum T] [DecidableEq A] in
/-- So is a block that is in no list. -/
theorem HugeInv.vacant_new (hout : ∀ t, out ∉ h.list t) : Vacant h id out false [] (h.list id) :=
  ⟨rfl, by simp, fun t ht => absurd ht (hout t), fun t ht => absurd ht (hout t),
    List.Sublist.refl _, hout id⟩

/-- The descriptor of a reserved range, written to a vacant place. -/
theorem HugeInv.Reserved.publish {d : Descriptor} {h₁ : Huge T A} (res : Reserved h id size d h₁)
    (hsize : 0 < size) (vacant : Vacant h id out reuse pre post) (hz : T → List ℕ) :
    Placed h id d.offset { h₁ with
      desc := update h₁.desc out d
      list := update h₁.list id (if reuse then h₁.list id else out :: h₁.list id)
      hazards := hz } := by
  have hl₁ : h₁.list = h.list := res.list
  have hd₁ : h₁.desc = h.desc := res.desc
  have hplace := res.place hsize (hl₁ ▸ vacant.sub) vacant.new (hd₁ ▸ vacant.front)
    (fun t ht ht' => ht (vacant.owner t (hl₁ ▸ ht')))
  rw [hl₁, vacant.list, ← hl₁]
  constructor
  case inv => exact hplace.hazards hz
  case new => exact ⟨out, by simp [update_self], by simp [update_self, res.live], by simp⟩
  case old =>
    intro t a ha hlive
    have hne : a ≠ out := by
      rintro rfl
      rw [vacant.safe t ha] at hlive
      cases hlive
    refine ⟨?_, by simp only [update_of_ne hne, hd₁]⟩
    by_cases ht : t = id
    · subst ht
      simp only [update_self, ← vacant.list]
      split
      · exact ha
      · exact List.mem_cons_of_mem _ ha
    · simp only [update_of_ne ht, hl₁]
      exact ha

/-- `allocate`, into a vacant place. -/
theorem HugeInv.allocate (inv : HugeInv h) (hsize : 0 < size)
    (vacant : Vacant h id out reuse pre post)
    (hal : h.allocate validate id size out reuse = .ok (offset, h')) : Placed h id offset h' := by
  obtain ⟨hz, d, h₁, hz', hrange, rfl, rfl⟩ := Huge.allocate_ok hal
  have res := (inv.hazards hz).allocateRange hsize hrange
  have vacant' : Vacant { h with hazards := hz } id out reuse pre post :=
    ⟨vacant.list, vacant.front, vacant.owner, vacant.safe, vacant.sub, vacant.new⟩
  have hplaced := res.publish hsize vacant' hz'
  exact ⟨hplaced.inv, hplaced.new, hplaced.old⟩

omit [FinEnum T] [DecidableEq A] in
theorem HugeInv.Placed.of_trimmed {h₁ : Huge T A} (htrim : h.Trimmed h₁)
    (hplaced : Placed h₁ id offset h') : Placed h id offset h' := by
  refine ⟨hplaced.inv, hplaced.new, fun t a ha hlive => ?_⟩
  have hsame := htrim.live hlive
  obtain ⟨hmem, hdesc⟩ := hplaced.old t a (htrim.list ▸ ha) (hsame ▸ hlive)
  exact ⟨hmem, hdesc.trans hsame⟩

/-- **An allocation keeps the invariant**, and its offset heads a live range. -/
theorem HugeInv.allocateHuge (inv : HugeInv h) {block : A} (hblock : ∀ t, block ∉ h.list t)
    (hal : h.allocateHuge validate id size block = .ok (offset, h')) : Placed h id offset h' := by
  obtain ⟨h₁, safe, hreuse, inv₁, htrim, hsafe⟩ := inv.reuse id
  rw [Huge.allocateHuge] at hal
  split at hal
  · cases hal
  · rename_i hsize
    have hpos : 0 < nextMultipleOf size sizePage := by omega
    rw [hreuse] at hal
    refine .of_trimmed htrim ?_
    cases safe with
    | none => exact inv₁.allocate hpos (vacant_new (htrim.list ▸ hblock)) hal
    | some a =>
      obtain ⟨pre, post, hl, hs, hpre⟩ := hsafe a rfl
      exact inv₁.allocate hpos (inv₁.vacant_reused hl hs hpre) hal

/-- `allocate` returns while there are slots and room for its hazard. -/
theorem HugeInv.allocate_returns (inv : HugeInv h) (hsize : 0 < size) (reuse : Bool) (out : A)
    (hroom : h.hint + slotCount size ≤ slotsLen) (hhazards : (h.hazards id).length < hazardsLen) :
    ∃ offset h', h.allocate false id size out reuse = .ok (offset, h') ∧
      h'.hint ≤ h.hint + slotCount size ∧
      (∀ t, (h'.hazards t).length ≤ (h.hazards t).length + 1) ∧
      h'.list = if reuse then h.list else update h.list id (out :: h.list id) := by
  obtain ⟨hz, hrefresh, hle⟩ := Huge.refresh_eq h id
  rcases (inv.hazards hz).allocateRange_two id hsize with
    ⟨d, h₁, hrange, hhint⟩ | ⟨-, hfull⟩
  · have res := (inv.hazards hz).allocateRange hsize hrange
    have hz₁ : h₁.hazards = hz := res.hazards
    have hl₁ : h₁.list = h.list := res.list
    have hlen : (hz id).length < hazardsLen := lt_of_le_of_lt (hle id) hhazards
    have hadded : ∀ t, (update hz id (hz id ++ [d.offset]) t).length ≤ (h.hazards t).length + 1 := by
      intro t
      have := hle t
      by_cases ht : t = id
      · subst ht
        simp only [update_self, List.length_append, List.length_singleton]
        omega
      · simp only [update_of_ne ht]
        omega
    simp only [Huge.allocate, hrefresh, hrange, ok_bind]
    cases reuse with
    | true =>
      rw [if_pos rfl, Huge.insertHazard_returns (by simpa only [hz₁] using hlen), ok_bind]
      exact ⟨_, _, rfl, hhint, by simpa only [hz₁] using hadded, hl₁⟩
    | false =>
      rw [if_neg Bool.false_ne_true,
        Huge.insertHazard_returns (by simpa only [hz₁] using hlen), ok_bind]
      exact ⟨_, _, rfl, hhint, by simpa only [hz₁] using hadded, by simp [hl₁]⟩
  · exact absurd hroom (not_le.mpr hfull)

/-- **An allocation returns** while there are slots and room for its hazard. -/
theorem HugeInv.allocateHuge_returns (inv : HugeInv h) (id : T) (size : ℕ) (block : A)
    (hsize : 0 < nextMultipleOf size sizePage) (hmax : nextMultipleOf size sizePage < 2 ^ 64)
    (hroom : h.hint + slotCount (nextMultipleOf size sizePage) ≤ slotsLen)
    (hhazards : (h.hazards id).length < hazardsLen) :
    ∃ offset h', h.allocateHuge false id size block = .ok (offset, h') ∧
      h'.hint ≤ h.hint + slotCount (nextMultipleOf size sizePage) ∧
      (∀ t, (h'.hazards t).length ≤ (h.hazards t).length + 1) ∧
      ∀ t, ∀ a ∈ h'.list t, a = block ∨ a ∈ h.list t := by
  obtain ⟨h₁, safe, hreuse, inv₁, htrim, -⟩ := inv.reuse id
  rw [← htrim.hint] at hroom ⊢
  rw [← htrim.hazards] at hhazards ⊢
  rw [← htrim.list, Huge.allocateHuge, if_neg (by omega), hreuse]
  cases safe with
  | none =>
    obtain ⟨offset, h', hal, hhint, hz, hlist⟩ :=
      inv₁.allocate_returns hsize false block hroom hhazards
    refine ⟨offset, h', hal, hhint, hz, fun t a ha => ?_⟩
    rw [hlist, if_neg Bool.false_ne_true] at ha
    by_cases ht : t = id
    · subst ht
      rw [update_self] at ha
      exact List.mem_cons.mp ha
    · rw [update_of_ne ht] at ha
      exact .inr ha
  | some a =>
    obtain ⟨offset, h', hal, hhint, hz, hlist⟩ :=
      inv₁.allocate_returns hsize true a hroom hhazards
    exact ⟨offset, h', hal, hhint, hz, fun t b hb => .inr (by rwa [hlist, if_pos rfl] at hb)⟩

omit [FinEnum T] in
/-- A range that is freed stays in use until its owner sees that no hazard is left. -/
theorem HugeInv.setFree (inv : HugeInv h) (ua : (h.desc a).InUse) :
    HugeInv { h with desc := update h.desc a { h.desc a with state := .free } } := by
  have hinuse : ∀ {b}, (update h.desc a { h.desc a with state := .free } b).InUse →
      (h.desc b).InUse := by
    intro b hb
    by_cases heq : b = a
    · exact heq ▸ ua
    · rwa [update_of_ne heq] at hb
  constructor
  case slots =>
    exact ⟨inv.slots.le_hint, inv.slots.pos, inv.slots.gap, inv.slots.hint_le⟩
  case nodup => exact inv.nodup
  case disjoint => exact inv.disjoint
  case freeClaimed => exact inv.freeClaimed
  case pos =>
    intro t b hb ub
    have hpos := inv.pos t b hb (hinuse ub)
    by_cases heq : b = a
    · subst heq
      simpa only [update_self] using hpos
    · simpa only [update_of_ne heq] using hpos
  case claimed =>
    intro t b hb ub
    rw [Descriptor.range_update]
    exact inv.claimed t b hb (hinuse ub)
  case free =>
    intro t b hb ub
    rw [Descriptor.range_update]
    exact inv.free t b hb (hinuse ub)
  case order =>
    intro t
    refine (inv.order t).imp fun hcb ub => ?_
    rw [Descriptor.range_update, Descriptor.range_update]
    exact hcb (hinuse ub)

/-- **A free keeps the invariant**: `find` returns the descriptor of the range that is
freed, whoever frees it. -/
theorem HugeInv.free_live (inv : HugeInv h) (ha : a ∈ h.list t) (hlive : (h.desc a).state = .live)
    (hfree : h.free id (h.desc a).offset = .ok h') :
    HugeInv h' ∧ h'.list = h.list ∧ ∀ b, b ≠ a → h'.desc b = h.desc b := by
  have ua : (h.desc a).InUse := by simp [Descriptor.InUse, hlive]
  obtain ⟨hz, hrefresh, -⟩ := Huge.refresh_eq h id
  have hmem : (h.desc a).offset ∈ (h.desc a).range := by
    have := inv.pos t a ha ua
    exact Finset.mem_Ico.mpr ⟨le_rfl, by omega⟩
  have hfind := (inv.hazards hz).find_eq ha ua hmem
  simp only [Huge.free, hrefresh, hfind] at hfree
  obtain rfl := Except.ok.inj hfree
  exact ⟨(inv.setFree ua).hazards _, rfl, fun b hb => update_of_ne hb _ _⟩

omit [DecidableEq A] in
/-- A fault changes nothing but hazards. -/
theorem Huge.tryMap_eq (hmap : h.tryMap validate id offset = .ok h') :
    ∃ hz, h' = { h with hazards := hz } := by
  rw [Huge.tryMap] at hmap
  split at hmap
  · exact ⟨h.hazards, (Except.ok.inj hmap).symm⟩
  · exact Huge.insertHazard_eq hmap

end Calls

/-! ### Runs -/

namespace HugeSession

variable [FinEnum T] [DecidableEq A] {validate : Bool} {s s' : HugeSession T A}

/-- The invariant of a session: every live offset heads the range of a live descriptor. -/
structure Sound (s : HugeSession T A) : Prop where
  inv : HugeInv s.heap
  live : ∀ offset ∈ s.live, ∃ t, ∃ a ∈ s.heap.list t,
    (s.heap.desc a).state = .live ∧ (s.heap.desc a).offset = offset

theorem Step.allocate {t : T} {size offset : ℕ} {block : A} {h : Huge T A}
    (hblock : ∀ t, block ∉ s.heap.list t)
    (hal : s.heap.allocateHuge validate t size block = .ok (offset, h)) :
    Step validate s { heap := h, live := insert offset s.live } :=
  ⟨.allocate t size block, hblock, by rw [call, hal]⟩

theorem Sound.step (hs : s.Sound) (hstep : Step validate s s') : s'.Sound := by
  obtain ⟨c, hlegal, hcall⟩ := hstep
  cases c with
  | allocate t size block =>
    rw [call] at hcall
    split at hcall
    · rename_i offset h hal
      obtain rfl := Except.ok.inj hcall
      have hplaced := hs.inv.allocateHuge hlegal hal
      refine ⟨hplaced.inv, fun off hoff => ?_⟩
      rcases Finset.mem_insert.mp hoff with rfl | hoff
      · exact ⟨t, hplaced.new⟩
      · obtain ⟨t, a, ha, hlive, hoffset⟩ := hs.live off hoff
        obtain ⟨hmem, hdesc⟩ := hplaced.old t a ha hlive
        exact ⟨t, a, hmem, hdesc ▸ hlive, hdesc ▸ hoffset⟩
    · cases hcall
  | free t offset =>
    rw [call] at hcall
    split at hcall
    · rename_i h hfree
      obtain rfl := Except.ok.inj hcall
      obtain ⟨t, a, ha, hlive, rfl⟩ := hs.live offset hlegal
      obtain ⟨inv, hlist, hframe⟩ := hs.inv.free_live ha hlive hfree
      refine ⟨inv, fun off hoff => ?_⟩
      obtain ⟨hne, hoff⟩ := Finset.mem_erase.mp hoff
      obtain ⟨t', b, hb, hlive', rfl⟩ := hs.live off hoff
      have hba : b ≠ a := fun heq => hne (heq ▸ rfl)
      exact ⟨t', b, hlist ▸ hb, by rw [hframe b hba, hlive'], by rw [hframe b hba]⟩
    · cases hcall
  | tryMap t offset =>
    rw [call] at hcall
    split at hcall
    · rename_i h hmap
      obtain rfl := Except.ok.inj hcall
      obtain ⟨hz, rfl⟩ := Huge.tryMap_eq hmap
      exact ⟨hs.inv.hazards hz, hs.live⟩
    · cases hcall

theorem sound_run {blank : Descriptor} (hrun : ReflTransGen (Step validate) (zeroed blank) s) :
    s.Sound := by
  induction hrun with
  | refl => exact ⟨.zeroed, by simp [zeroed]⟩
  | tail _ hstep ih => exact ih.step hstep

end HugeSession

/-- No two huge allocations overlap: the live ranges are pairwise disjoint and inside the
slots of their owners, a freed range that is still protected by a hazard meets no live
range, and no free set meets a range that is in use. -/
structure Huge.NoOverlap (h : Huge T A) : Prop where
  live_disjoint : ∀ t t' a b, a ∈ h.list t → b ∈ h.list t' → a ≠ b →
    (h.desc a).state = .live → (h.desc b).state = .live →
    Disjoint (h.desc a).range (h.desc b).range
  live_claimed : ∀ t, ∀ a ∈ h.list t, (h.desc a).state = .live →
    ↑(h.desc a).range ⊆ h.claimed t
  hazard_disjoint : ∀ t t' u a b, a ∈ h.list t → b ∈ h.list t' →
    (h.desc a).state = .free → (h.desc a).offset ∈ h.hazards u → (h.desc b).state = .live →
    Disjoint (h.desc a).range (h.desc b).range
  free_disjoint : ∀ t, ∀ a ∈ h.list t, (h.desc a).state = .live ∨ (h.desc a).state = .free →
    Disjoint (h.dram t).free (h.desc a).range

/-- Ranges in use are disjoint, also across threads. -/
theorem HugeInv.inUse_disjoint {t' : T} (inv : HugeInv h) (ha : a ∈ h.list t) (hb : b ∈ h.list t')
    (hab : a ≠ b) (ua : (h.desc a).InUse) (ub : (h.desc b).InUse) :
    Disjoint (h.desc a).range (h.desc b).range := by
  refine Finset.disjoint_left.mpr fun x hx hx' => ?_
  obtain rfl := inv.claimed_disjoint (inv.claimed t a ha ua hx) (inv.claimed t' b hb ub hx')
  exact Finset.disjoint_left.mp (inv.ranges_disjoint ha hb hab ua ub) hx hx'

theorem HugeInv.noOverlap (inv : HugeInv h) : h.NoOverlap := by
  have hlive : ∀ {a}, (h.desc a).state = .live → (h.desc a).InUse := by
    intro a hs
    simp [Descriptor.InUse, hs]
  have hfree : ∀ {a}, (h.desc a).state = .free → (h.desc a).InUse := by
    intro a hs
    simp [Descriptor.InUse, hs]
  constructor
  case live_disjoint =>
    intro t t' a b ha hb hab sa sb
    exact inv.inUse_disjoint ha hb hab (hlive sa) (hlive sb)
  case live_claimed => exact fun t a ha sa => inv.claimed t a ha (hlive sa)
  case hazard_disjoint =>
    intro t t' u a b ha hb sa _ sb
    have hab : a ≠ b := by
      rintro rfl
      rw [sa] at sb
      cases sb
    exact inv.inUse_disjoint ha hb hab (hfree sa) (hlive sb)
  case free_disjoint => exact fun t a ha sa => inv.free t a ha (sa.elim hlive hfree)

/-- **Huge allocations never overlap**, in any state that completed calls lead to. -/
theorem HugeSession.noOverlap_run [FinEnum T] [DecidableEq A] {validate : Bool}
    {blank : Descriptor} {s : HugeSession T A}
    (hrun : ReflTransGen (Step validate) (zeroed blank) s) : s.heap.NoOverlap :=
  (sound_run hrun).inv.noOverlap

/-- Two threads allocate a page each. -/
theorem HugeSession.noOverlap_run_two : ∃ s : HugeSession (Fin 2) ℕ,
    ReflTransGen (Step false) (zeroed ⟨0, 0, 0, .safe⟩) s ∧
      (∀ t, ∃ a ∈ s.heap.list t, (s.heap.desc a).state = .live) ∧ s.heap.NoOverlap := by
  have hslot : slotCount (nextMultipleOf 1 sizePage) = 1 := by decide +kernel
  have hinv : HugeInv (Huge.zeroed ⟨0, 0, 0, .safe⟩ : Huge (Fin 2) ℕ) := .zeroed
  have hblock : ∀ t, 0 ∉ (Huge.zeroed ⟨0, 0, 0, .safe⟩ : Huge (Fin 2) ℕ).list t := by
    simp [Huge.zeroed]
  obtain ⟨off₁, h₁, hal₁, hhint₁, hhaz₁, hlist₁⟩ := hinv.allocateHuge_returns 0 1 0
    (by decide) (by decide) (by rw [hslot]; decide) (by decide)
  have hp₁ := hinv.allocateHuge hblock hal₁
  have hblock₁ : ∀ t, 1 ∉ h₁.list t := by
    intro t ht
    have := hlist₁ t 1 ht
    simp [Huge.zeroed] at this
  rw [hslot] at hhint₁
  obtain ⟨off₂, h₂, hal₂, -⟩ := hp₁.inv.allocateHuge_returns 1 1 1
    (by decide) (by decide)
    (by rw [hslot]; exact (Nat.add_le_add_right hhint₁ 1).trans (by decide))
    (lt_of_le_of_lt (hhaz₁ 1) (by decide))
  have hp₂ := hp₁.inv.allocateHuge hblock₁ hal₂
  have hstep₁ := Step.allocate (s := zeroed ⟨0, 0, 0, .safe⟩) hblock hal₁
  have hstep₂ := Step.allocate (s := ⟨h₁, insert off₁ ∅⟩) hblock₁ hal₂
  have hrun := (ReflTransGen.single hstep₁).tail hstep₂
  refine ⟨_, hrun, fun t => ?_, noOverlap_run hrun⟩
  obtain ⟨a, ha, hlive, -⟩ := hp₁.new
  obtain ⟨b, hb, hlive', -⟩ := hp₂.new
  match t with
  | 0 =>
    obtain ⟨hmem, hdesc⟩ := hp₂.old 0 a ha hlive
    exact ⟨a, hmem, hdesc ▸ hlive⟩
  | 1 => exact ⟨b, hb, hlive'⟩

end Cxlalloc
