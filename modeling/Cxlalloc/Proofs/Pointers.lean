/-
Which heap a pointer goes to.

Offsets are counted from one slab before a region, and the slab is taken off again before
an offset is compared with the size of the reservation.  For a pointer inside that slab
there is nothing to take it from.  A release build wraps round and rejects the pointer, as
it should; a build with overflow checks panics.  The slab before the large region is the
end of the small one, where the small heap has already answered, so only the addresses
right before the first region are left (`route_eq`).
-/
import Cxlalloc.OverflowChecks
import Cxlalloc.Proofs.Allocator

namespace Cxlalloc

open Cxlalloc.Bracket

/-! ### One heap -/

namespace Data

variable {B : Type} [Bracket B] {d : Data B} {p : ℕ}

/-- The heap accepts exactly the pointers into its region. -/
theorem exists_checked_iff :
    (∃ o, d.checkedPointerToOffset p = some o) ↔ d.start ≤ p ∧ p < d.start + reservationSize := by
  constructor
  · rintro ⟨o, ho⟩
    obtain ⟨rfl, hin⟩ := checked_eq_some_iff.mp ho
    exact offsetToPointer_mem hin
  · rintro ⟨hle, hlt⟩
    have hslab : 0 < sizeSlab B := sizeSlab_pos
    rw [start] at hle hlt
    refine ⟨⟨p - d.base, by omega⟩, checked_eq_some_iff.mpr ⟨?_, ?_, ?_⟩⟩
    · show p = d.base + (p - d.base)
      omega
    · show sizeSlab B ≤ p - d.base
      omega
    · show p - d.base < sizeSlab B + reservationSize
      omega

/-- Overflow checks make a difference only within the slab before the region. -/
theorem strictPointerToOffset_eq :
    d.strictPointerToOffset p =
      if d.base < p ∧ p < d.start then .error .overflow else .ok (d.checkedPointerToOffset p) := by
  rw [strictPointerToOffset, checkedPointerToOffset, pointerToOffset]
  by_cases hbase : d.base < p
  · by_cases hstart : p < d.start
    · have hlt : ¬ sizeSlab B ≤ p - d.base := by
        rw [start] at hstart
        omega
      simp [hbase, hstart, Offset.toU64, subOrPanic, hlt]
    · have hle : sizeSlab B ≤ p - d.base := by
        rw [start] at hstart
        omega
      simp [hbase, hstart, Offset.toU64, subOrPanic, hle, Option.filter]
  · rw [dif_neg hbase, if_neg fun h => hbase h.1]
    rfl

end Data

/-! ### The cascade -/

namespace Regions

variable (g : Regions) (p : ℕ)

/-- Overflow checks make a difference only within the slab before the first region. -/
theorem route_eq :
    g.route p =
      if g.small.base < p ∧ p < g.small.start then .error .overflow else .ok (g.target p) := by
  have hstart := g.large_start
  have hsmall : g.small.start = g.small.base + Small.sizeSlab := rfl
  have hlarge : g.large.start = g.large.base + Large.sizeSlab := rfl
  rw [route, target, Data.strictPointerToOffset_eq]
  split
  · rfl
  rw [ok_bind]
  cases ho : g.small.checkedPointerToOffset p with
  | some o => rfl
  | none =>
    -- the slab before the large region belongs to the small one
    have hout : ¬ (g.large.base < p ∧ p < g.large.start) := by
      rintro ⟨hbase, hlt⟩
      have hslab : Large.sizeSlab ≤ reservationSize := by decide
      obtain ⟨o, hsome⟩ := Data.exists_checked_iff.mpr
        (show g.small.start ≤ p ∧ p < g.small.start + reservationSize by omega)
      rw [ho] at hsome
      cases hsome
    dsimp only
    rw [Data.strictPointerToOffset_eq, if_neg hout, ok_bind]
    cases g.large.checkedPointerToOffset p <;> rfl

/-- The answer to a pointer is right: each heap accepts the addresses of its region and no
others. -/
structure Exact (r : Except Panic (Option Target)) : Prop where
  small : (∃ o, r = .ok (some (.small o))) ↔
    g.small.start ≤ p ∧ p < g.small.start + reservationSize
  large : (∃ o, r = .ok (some (.large o))) ↔
    g.small.start + reservationSize ≤ p ∧ p < g.small.start + 2 * reservationSize
  huge : (∃ offset, r = .ok (some (.huge offset))) ↔
    g.small.start + 2 * reservationSize ≤ p ∧ p < g.small.start + 3 * reservationSize
  nowhere : r = .ok none ↔ p < g.small.start ∨ g.small.start + 3 * reservationSize ≤ p

/-- In a release build the answer is right for every pointer. -/
theorem target_exact : g.Exact p (.ok (g.target p)) := by
  have hlarge := g.large_start
  have hhuge := g.huge_start
  have hsmall' := Data.exists_checked_iff (d := g.small) (p := p)
  have hlarge' := Data.exists_checked_iff (d := g.large) (p := p)
  rw [target]
  cases hs : g.small.checkedPointerToOffset p with
  | some o =>
    have hin := hsmall'.mp ⟨o, hs⟩
    constructor <;> simp <;> omega
  | none =>
    have hout : ¬ (g.small.start ≤ p ∧ p < g.small.start + reservationSize) := by
      simpa [hs] using hsmall'
    cases hl : g.large.checkedPointerToOffset p with
    | some o =>
      have hin := hlarge'.mp ⟨o, hl⟩
      constructor <;> simp <;> omega
    | none =>
      have hout' : ¬ (g.large.start ≤ p ∧ p < g.large.start + reservationSize) := by
        simpa [hl] using hlarge'
      by_cases hin : g.huge ≤ p ∧ p - g.huge < reservationSize
      · rw [hugeOffset, if_pos hin]
        constructor <;> simp <;> omega
      · rw [hugeOffset, if_neg hin]
        constructor <;> simp <;> omega

/-- **With overflow checks a pointer is routed right, and no subtraction goes below zero,
exactly when it is not within the slab before the first region.** -/
theorem exact_route_iff : g.Exact p (g.route p) ↔ ¬ (g.small.base < p ∧ p < g.small.start) := by
  rw [route_eq]
  constructor
  · intro hexact hbelow
    rw [if_pos hbelow] at hexact
    cases hexact.nowhere.mpr (.inl hbelow.2)
  · intro hout
    rw [if_neg hout]
    exact g.target_exact p

/-- The byte before the small region. -/
theorem route_underflow : ∃ (g : Regions) (p : ℕ), 2 ^ 19 ≤ g.small.start ∧
    g.small.start + 3 * 2 ^ 40 < 2 ^ 64 ∧ 0 < p ∧ p < 2 ^ 64 ∧
      g.route p = .error .overflow ∧ ¬ g.Exact p (g.route p) := by
  refine ⟨Regions.at (2 ^ 20) (by decide), 2 ^ 20 + 2 ^ 15 - 1, by decide, by decide, by decide,
    by decide, ?_, ?_⟩
  · rfl
  · intro hexact
    cases hexact.nowhere.mpr (.inl (by decide))

end Regions

end Cxlalloc
