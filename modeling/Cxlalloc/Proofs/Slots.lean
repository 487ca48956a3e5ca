/-
The claimed slots tile a prefix of the address space.

A claim is only ever recorded at the end of the last one, although the threads agree on
where that is through a hint that lags behind: the hint, and every position a thread has
reached from it, is a `Boundary`, and a boundary at which nothing is recorded is the end.
-/
import Cxlalloc.Slots
import Mathlib.Logic.Relation
import Mathlib.Order.Basic

namespace Cxlalloc

open Relation
open Function

variable {T A : Type}

namespace Huge

variable {h : Huge T A} {n b : ℕ}

/-- The start, or the end of a claim. -/
def Boundary (h : Huge T A) (b : ℕ) : Prop :=
  b = 0 ∨ ∃ i c, h.slots i = some c ∧ b = i + c.slotCount

/-- The recorded claims tile the slots below `n`. -/
structure Tiles (h : Huge T A) (n : ℕ) : Prop where
  le : n ≤ slotsLen
  pos : ∀ i c, h.slots i = some c → 0 < c.slotCount
  inside : ∀ i c, h.slots i = some c → i + c.slotCount ≤ n
  gap : ∀ i c k, h.slots i = some c → i < k → k < i + c.slotCount → h.slots k = none
  /-- At the start and behind every claim, the next one is recorded, up to `n`. -/
  next : ∀ b, h.Boundary b → b < n → h.slots b ≠ none

theorem Boundary.mono {h' : Huge T A} (hb : h.Boundary b)
    (hgrown : ∀ i c, h.slots i = some c → h'.slots i = some c) : h'.Boundary b := by
  rcases hb with rfl | ⟨i, c, hi, rfl⟩
  · exact .inl rfl
  · exact .inr ⟨i, c, hgrown i c hi, rfl⟩

namespace Tiles

theorem boundary_le (ht : h.Tiles n) (hb : h.Boundary b) : b ≤ n := by
  rcases hb with rfl | ⟨i, c, hi, rfl⟩
  · exact Nat.zero_le n
  · exact ht.inside i c hi

/-- Where nothing is recorded at a boundary, the prefix ends. -/
theorem boundary_eq (ht : h.Tiles n) (hb : h.Boundary b) (hnone : h.slots b = none) : b = n := by
  by_contra hne
  exact ht.next b hb (lt_of_le_of_ne (ht.boundary_le hb) hne) hnone

/-- Every slot of the prefix is in a claim. -/
theorem cover (ht : h.Tiles n) {k : ℕ} (hk : k < n) :
    ∃ i c, h.slots i = some c ∧ i ≤ k ∧ k < i + c.slotCount := by
  have hself : ∀ b, h.Boundary b → b < n → ∃ i c, h.slots i = some c ∧ i ≤ b ∧
      b < i + c.slotCount := by
    intro b hb hlt
    obtain ⟨c, hc⟩ := Option.ne_none_iff_exists'.mp (ht.next b hb hlt)
    exact ⟨b, c, hc, le_rfl, Nat.lt_add_of_pos_right (ht.pos b c hc)⟩
  induction k with
  | zero => exact hself 0 (.inl rfl) hk
  | succ k ih =>
    obtain ⟨i, c, hi, hle, hlt⟩ := ih (by omega)
    by_cases hin : k + 1 < i + c.slotCount
    · exact ⟨i, c, hi, by omega, hin⟩
    · exact hself (k + 1) (.inr ⟨i, c, hi, by omega⟩) hk

/-- And in one only. -/
theorem unique (ht : h.Tiles n) {i j k : ℕ} {c d : Claim T} (hi : h.slots i = some c)
    (hj : h.slots j = some d) (hik : i ≤ k) (hki : k < i + c.slotCount) (hjk : j ≤ k)
    (hkj : k < j + d.slotCount) : i = j := by
  rcases Nat.lt_trichotomy i j with hlt | heq | hlt
  · have := ht.gap i c j hi hlt (by omega)
    rw [hj] at this
    cases this
  · exact heq
  · have := ht.gap j d i hj hlt (by omega)
    rw [hi] at this
    cases this

/-- Walking back from a slot inside a claim finds the claim. -/
theorem findClaim_eq (ht : h.Tiles n) {i k : ℕ} {c : Claim T} (hi : h.slots i = some c)
    (hik : i ≤ k) (hki : k < i + c.slotCount) : h.findClaim k = some c.id := by
  induction k with
  | zero =>
    obtain rfl : i = 0 := by omega
    rw [findClaim, hi, Option.map_some]
  | succ k ih =>
    by_cases heq : i = k + 1
    · subst heq
      rw [findClaim, hi]
    · rw [findClaim, ht.gap i c (k + 1) hi (by omega) hki]
      exact ih (by omega) (by omega)

/-- A claim recorded at the end extends the prefix. -/
theorem extend (ht : h.Tiles n) {c : Claim T} (hnone : h.slots n = none) (hpos : 0 < c.slotCount)
    (hle : n + c.slotCount ≤ slotsLen) :
    Tiles { h with slots := update h.slots n (some c) } (n + c.slotCount) := by
  -- A claim of the new table is the new one, or one of the old.
  have hsplit : ∀ {i d}, update h.slots n (some c) i = some d →
      (i = n ∧ d = c) ∨ (i ≠ n ∧ h.slots i = some d) := by
    intro i d hd
    by_cases hi : i = n
    · subst hi
      rw [update_self] at hd
      exact .inl ⟨rfl, (Option.some.inj hd).symm⟩
    · rw [update_of_ne hi] at hd
      exact .inr ⟨hi, hd⟩
  constructor
  case le => exact hle
  case pos =>
    intro i d hd
    rcases hsplit hd with ⟨rfl, rfl⟩ | ⟨-, hd⟩
    · exact hpos
    · exact ht.pos i d hd
  case inside =>
    intro i d hd
    rcases hsplit hd with ⟨rfl, rfl⟩ | ⟨-, hd⟩
    · exact le_rfl
    · have := ht.inside i d hd
      omega
  case gap =>
    intro i d k hd hik hki
    show update h.slots n (some c) k = none
    rcases hsplit hd with ⟨rfl, rfl⟩ | ⟨-, hd⟩
    · -- Behind the old end nothing was recorded.
      rw [update_of_ne (by omega)]
      cases hk : h.slots k with
      | none => rfl
      | some e =>
        have := ht.inside k e hk
        omega
    · have := ht.inside i d hd
      rw [update_of_ne (by omega)]
      exact ht.gap i d k hd hik hki
  case next =>
    intro b hb hlt
    show update h.slots n (some c) b ≠ none
    by_cases hbn : b = n
    · subst hbn
      rw [update_self]
      exact Option.some_ne_none c
    rw [update_of_ne hbn]
    have hbound : h.Boundary b := by
      rcases hb with rfl | ⟨i, d, hd, rfl⟩
      · exact .inl rfl
      · rcases hsplit hd with ⟨rfl, rfl⟩ | ⟨-, hd⟩
        · omega
        · exact .inr ⟨i, d, hd, rfl⟩
    exact ht.next b hbound (lt_of_le_of_ne (ht.boundary_le hbound) hbn)

end Tiles

end Huge

namespace Claiming

variable [DecidableEq T] {s s' : Claiming T A} {blank : Descriptor}

/-- What is known of a thread from where it is. -/
def PcOk (h : Huge T A) (t : T) : ClaimPc → Prop
  | .idle => True
  | .loadHint slotCount => 0 < slotCount
  | .casSlot slotCount i => 0 < slotCount ∧ h.Boundary i
  | .storeHint slotCount i => h.slots i = some { id := t, slotCount := slotCount }
  | .panicked => True

/-- The invariant of all interleavings. -/
structure Inv (s : Claiming T A) : Prop where
  tiles : ∃ n, s.heap.Tiles n
  hint : s.heap.Boundary s.heap.hint
  pc : ∀ t, PcOk s.heap t (s.pc t)

omit [DecidableEq T] in
theorem Inv.zeroed : Inv (zeroed blank : Claiming T A) where
  tiles := ⟨0, by constructor <;> simp [Claiming.zeroed, Huge.zeroed]⟩
  hint := .inl rfl
  pc _ := trivial

variable {pc : ClaimPc}

omit [DecidableEq T] in
theorem PcOk.mono {h h' : Huge T A} {t : T} (hpc : PcOk h t pc)
    (hgrown : ∀ i c, h.slots i = some c → h'.slots i = some c) : PcOk h' t pc := by
  cases pc with
  | idle => trivial
  | loadHint slotCount => exact hpc
  | casSlot slotCount i => exact ⟨hpc.1, hpc.2.mono hgrown⟩
  | storeHint slotCount i => exact hgrown i _ hpc
  | panicked => trivial

/-- A thread goes on; the table has at most grown. -/
theorem Inv.goto {h : Huge T A} {t : T} (inv : s.Inv) (htiles : ∃ n, h.Tiles n)
    (hhint : h.Boundary h.hint) (hgrown : ∀ i c, s.heap.slots i = some c → h.slots i = some c)
    (hpc : PcOk h t pc) : Inv (Claiming.goto { s with heap := h } t pc) where
  tiles := htiles
  hint := hhint
  pc u := by
    show PcOk h u (update s.pc t pc u)
    by_cases hu : u = t
    · subst hu
      rwa [update_self]
    · rw [update_of_ne hu]
      exact (inv.pc u).mono hgrown

/-- The same if only the thread's own position changed. -/
theorem Inv.goto_self {t : T} (inv : s.Inv) (hpc : PcOk s.heap t pc) : (s.goto t pc).Inv :=
  inv.goto inv.tiles inv.hint (fun _ _ h => h) hpc

theorem Inv.access (t : T) (inv : s.Inv) : (s.access t).Inv := by
  have hpc := inv.pc t
  obtain ⟨n, ht⟩ := inv.tiles
  rw [Claiming.access]
  split
  · exact inv
  · rename_i slotCount hcase
    rw [hcase] at hpc
    exact inv.goto_self ⟨hpc, inv.hint⟩
  · rename_i slotCount i hcase
    rw [hcase] at hpc
    split
    · rename_i hfits
      split
      · rename_i hnone
        obtain rfl := ht.boundary_eq hpc.2 hnone
        have hgrown : ∀ j c, s.heap.slots j = some c →
            update s.heap.slots i (some ⟨t, slotCount⟩) j = some c := by
          intro j c hj
          rwa [update_of_ne]
          rintro rfl
          rw [hnone] at hj
          cases hj
        exact inv.goto ⟨_, ht.extend hnone hpc.1 hfits⟩ (inv.hint.mono hgrown) hgrown
          (update_self ..)
      · rename_i claim hsome
        exact inv.goto_self ⟨hpc.1, .inr ⟨i, claim, hsome, rfl⟩⟩
    · exact inv.goto_self trivial
  · rename_i slotCount i hcase
    rw [hcase] at hpc
    exact inv.goto ⟨n, ht.le, ht.pos, ht.inside, ht.gap, ht.next⟩ (.inr ⟨i, _, hpc, rfl⟩)
      (fun _ _ h => h) trivial
  · exact inv

theorem Inv.step (inv : s.Inv) (hstep : Step s s') : s'.Inv := by
  cases hstep with
  | access t => exact inv.access t
  | start t size hidle hpos hsize =>
    have hcount : 0 < nextMultipleOf size sizeSlot / sizeSlot := by
      rw [nextMultipleOf, Nat.mul_div_cancel _ (by decide)]
      exact Nat.div_pos (by omega) (by decide)
    exact inv.goto_self hcount

theorem inv_run (hrun : ReflTransGen Step (zeroed blank) s) : s.Inv := by
  induction hrun with
  | refl => exact .zeroed
  | tail _ hstep ih => exact ih.step hstep

/-- **Slots are claimed without overlap**, in every state of every interleaving: each slot
of some prefix is in exactly one recorded claim, no claim leaves the prefix, the hint is
the start or the end of a claim, and looking up an address of the prefix finds the thread
that claimed it. -/
theorem claims_tile (hrun : ReflTransGen Step (zeroed blank) s) : ∃ n ≤ slotsLen,
    (∀ i c, s.heap.slots i = some c → 0 < c.slotCount ∧ i + c.slotCount ≤ n) ∧
    (∀ k < n, ∃! i, ∃ c, s.heap.slots i = some c ∧ i ≤ k ∧ k < i + c.slotCount) ∧
    (s.heap.hint = 0 ∨ ∃ i c, s.heap.slots i = some c ∧ s.heap.hint = i + c.slotCount) ∧
    ∀ offset < n * sizeSlot, ∃ i c, s.heap.slots i = some c ∧ i * sizeSlot ≤ offset ∧
      offset < (i + c.slotCount) * sizeSlot ∧ s.heap.findOwner offset = some c.id := by
  have inv := inv_run hrun
  obtain ⟨n, ht⟩ := inv.tiles
  refine ⟨n, ht.le, fun i c hi => ⟨ht.pos i c hi, ht.inside i c hi⟩, fun k hk => ?_, inv.hint,
    fun offset hoffset => ?_⟩
  · obtain ⟨i, c, hi, hle, hlt⟩ := ht.cover hk
    refine ⟨i, ⟨c, hi, hle, hlt⟩, ?_⟩
    rintro j ⟨d, hj, hjk, hkj⟩
    exact ht.unique hj hi hjk hkj hle hlt
  · have hpos : 0 < sizeSlot := by decide
    have hk : offset / sizeSlot < n := (Nat.div_lt_iff_lt_mul hpos).mpr hoffset
    obtain ⟨i, c, hi, hle, hlt⟩ := ht.cover hk
    refine ⟨i, c, hi, (Nat.le_div_iff_mul_le hpos).mp hle, (Nat.div_lt_iff_lt_mul hpos).mp hlt, ?_⟩
    rw [Huge.findOwner]
    exact (if_pos (hk.trans_le ht.le)).trans (ht.findClaim_eq hi hle hlt)

/-- Two threads start from the same hint; the second loses the first slot and goes on
behind it, and the hint of the first is stored last. -/
theorem claims_tile_race : ∃ s : Claiming (Fin 2) ℕ,
    ReflTransGen Step (zeroed ⟨0, 0, 0, .safe⟩) s ∧
      s.heap.slots 0 = some ⟨0, 1⟩ ∧ s.heap.slots 1 = some ⟨1, 2⟩ ∧ s.heap.hint = 1 ∧
      ∃ n ≤ slotsLen,
        (∀ i c, s.heap.slots i = some c → 0 < c.slotCount ∧ i + c.slotCount ≤ n) ∧
        (∀ k < n, ∃! i, ∃ c, s.heap.slots i = some c ∧ i ≤ k ∧ k < i + c.slotCount) ∧
        (s.heap.hint = 0 ∨ ∃ i c, s.heap.slots i = some c ∧ s.heap.hint = i + c.slotCount) ∧
        ∀ offset < n * sizeSlot, ∃ i c, s.heap.slots i = some c ∧ i * sizeSlot ≤ offset ∧
          offset < (i + c.slotCount) * sizeSlot ∧ s.heap.findOwner offset = some c.id := by
  let s₀ : Claiming (Fin 2) ℕ := zeroed ⟨0, 0, 0, .safe⟩
  let s₁ := (s₀.start 0 1).start 1 (2 ^ 30 + 1)
  let s₂ := ((((((s₁.access 0).access 1).access 0).access 1).access 1).access 1).access 0
  have hstart : ReflTransGen Step s₀ s₁ :=
    (ReflTransGen.single (.start 0 1 rfl (by decide) (by decide))).tail
      (.start 1 (2 ^ 30 + 1) rfl (by decide) (by decide))
  have hrun : ReflTransGen Step s₀ s₂ :=
    ((((((hstart.tail (.access 0)).tail (.access 1)).tail (.access 0)).tail (.access 1)).tail
      (.access 1)).tail (.access 1)).tail (.access 0)
  exact ⟨s₂, hrun, by decide +kernel, by decide +kernel, by decide +kernel, claims_tile hrun⟩

end Claiming

end Cxlalloc
