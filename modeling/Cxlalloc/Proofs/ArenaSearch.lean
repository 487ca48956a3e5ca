/-
The search for a gap in the preload arena is complete and takes the lowest gap.

The search is stated here once more without a word size, so that what is said of it does
not depend on where a `usize` ends.  A candidate only moves for a reason: it is rounded up
to the alignment, or it passes an extent it overlaps.  Neither can jump over an offset
that fits, so every candidate is at most the lowest one that does, also in a table whose
extents overlap (`Proofs/DaxArena.lean`).

Where the arena and one alignment end below `2 ^ 64`, the search of the code answers
exactly what this one does.
-/
import Cxlalloc.Proofs.DaxArena

namespace Cxlalloc.Preload

open Function

/-! ### The search without a word size -/

/-- `align_up` on naturals. -/
def alignUpExact (value alignment : ℕ) : ℕ :=
  (value + (alignment - 1)) / alignment * alignment

/-- `aligned_offset` on naturals. -/
def alignedOffsetExact (base offset alignment : ℕ) : ℕ :=
  alignUpExact (base + offset) alignment - base

namespace DaxArena

/-- The loop of `DaxArena::allocate` on naturals, followed for a given number of rounds. -/
def seekExact (arena : DaxArena) (extents : Extents) (alignment roundedLen : ℕ) :
    ℕ → ℕ → Option ℕ
  | 0, _ => none
  | rounds + 1, candidate =>
    let candidate := alignedOffsetExact arena.base candidate alignment
    match extents.nextFrom candidate with
    | none => some candidate
    | some extent =>
      if candidate + roundedLen ≤ extent.offset then some candidate
      else seekExact arena extents alignment roundedLen rounds
        (extent.offset + extent.roundedLen)

/-- `DaxArena::allocate` on naturals: the answer, and the table it leaves. -/
def allocateExact (arena : DaxArena) (lock : Except ArenaError Unit) (size alignment : ℕ)
    (extents : Extents) : Option (Except ArenaError ℕ × Extents) :=
  if !isPowerOfTwo alignment then some (.error .invalidAlignment, extents)
  else
    let requestedLen := max size 1
    let roundedLen := alignUpExact requestedLen arena.alignment
    let allocationAlignment := max alignment arena.alignment
    match lock with
    | .error e => some (.error e, extents)
    | .ok () =>
      match extents.position fun extent => !extent.active with
      | none => some (.error .outOfMemory, extents)
      | some slot =>
        match arena.seekExact extents allocationAlignment roundedLen (maxExtents + 1) 0 with
        | none => none
        | some candidate =>
          if candidate + roundedLen ≤ arena.size then
            some (.ok (arena.base + candidate),
              update extents slot
                { offset := candidate, roundedLen := roundedLen,
                  requestedLen := requestedLen, active := true })
          else some (.error .outOfMemory, extents)

/-- An offset at which an extent of a given length can be placed. -/
structure Fits (arena : DaxArena) (extents : Extents) (alignment len o : ℕ) : Prop where
  aligned : alignment ∣ arena.base + o
  apart : ∀ i, (extents i).active = true →
    o + len ≤ (extents i).offset ∨ (extents i).offset + (extents i).roundedLen ≤ o
  inside : o + len ≤ arena.size

end DaxArena

/-! ### Rounding up -/

section Align

variable {v w a base offset o : ℕ}

theorem le_alignUpExact (ha : 0 < a) : v ≤ alignUpExact v a := by
  have hdiv := Nat.div_add_mod (v + (a - 1)) a
  have hmod := Nat.mod_lt (v + (a - 1)) ha
  rw [Nat.mul_comm] at hdiv
  rw [alignUpExact]
  omega

/-- Rounding up stops at the first multiple. -/
theorem alignUpExact_le (ha : 0 < a) (hdvd : a ∣ w) (hle : v ≤ w) : alignUpExact v a ≤ w := by
  obtain ⟨k, rfl⟩ := hdvd
  rw [alignUpExact, Nat.mul_comm a k]
  refine Nat.mul_le_mul_right a (Nat.lt_succ_iff.mp ((Nat.div_lt_iff_lt_mul ha).mpr ?_))
  rw [Nat.succ_mul, Nat.mul_comm k a]
  omega

theorem le_alignedOffsetExact (ha : 0 < a) : offset ≤ alignedOffsetExact base offset a := by
  have := le_alignUpExact (v := base + offset) ha
  rw [alignedOffsetExact]
  omega

theorem alignedOffsetExact_le (ha : 0 < a) (hdvd : a ∣ base + o) (hle : offset ≤ o) :
    alignedOffsetExact base offset a ≤ o := by
  have := alignUpExact_le ha hdvd (Nat.add_le_add_left hle base)
  rw [alignedOffsetExact]
  omega

/-- Where rounding up does not leave the word, it is rounding up on naturals. -/
theorem alignUp_eq_some (ha : isPowerOfTwo a = true) :
    alignUp v a = some w ↔ alignUpExact v a = w ∧ v + (a - 1) < usizeSize := by
  have hpos := isPowerOfTwo.pos ha
  simp only [alignUp, Option.bind_eq_bind, Option.bind_eq_some_iff, checkedSub_eq_some,
    checkedAdd_eq_some, Option.pure_def, Option.some.injEq]
  constructor
  · rintro ⟨_, ⟨-, rfl⟩, _, ⟨rfl, hlt⟩, rfl⟩
    exact ⟨(maskDown_eq hlt ha (by omega)).symm, hlt⟩
  · rintro ⟨rfl, hlt⟩
    exact ⟨a - 1, ⟨hpos, rfl⟩, _, ⟨rfl, hlt⟩, maskDown_eq hlt ha (by omega)⟩

theorem alignedOffset_eq_some (ha : isPowerOfTwo a = true) :
    alignedOffset base offset a = some o ↔
      alignedOffsetExact base offset a = o ∧ base + offset + (a - 1) < usizeSize := by
  have hpos := isPowerOfTwo.pos ha
  have hle := le_alignUpExact (v := base + offset) hpos
  simp only [alignedOffset, Option.bind_eq_bind, Option.bind_eq_some_iff, checkedSub_eq_some,
    checkedAdd_eq_some, alignUp_eq_some ha]
  constructor
  · rintro ⟨_, ⟨rfl, -⟩, _, ⟨rfl, hlt⟩, -, rfl⟩
    exact ⟨rfl, hlt⟩
  · rintro ⟨rfl, hlt⟩
    exact ⟨_, ⟨rfl, by omega⟩, _, ⟨rfl, hlt⟩, by omega, rfl⟩

end Align

/-! ### The lowest fit -/

namespace DaxArena

variable {arena : DaxArena} {extents extents' : Extents} {alignment len n c₀ c o : ℕ}

/-- The search ends, and no offset that fits is below where it does. -/
theorem seekExact_lowest (hpos : ∀ i, (extents i).active = true → 0 < (extents i).roundedLen)
    (ha : 0 < alignment) (hbelow : ∀ o, arena.Fits extents alignment len o → c₀ ≤ o)
    (hn : extents.ahead c₀ < n) :
    ∃ c, arena.seekExact extents alignment len n c₀ = some c ∧
      ∀ o, arena.Fits extents alignment len o → c ≤ o := by
  induction n generalizing c₀ with
  | zero => cases hn
  | succ n ih =>
    have hge : c₀ ≤ alignedOffsetExact arena.base c₀ alignment := le_alignedOffsetExact ha
    have hlow : ∀ o, arena.Fits extents alignment len o →
        alignedOffsetExact arena.base c₀ alignment ≤ o :=
      fun o fits => alignedOffsetExact_le ha fits.aligned (hbelow o fits)
    rw [seekExact]
    split
    · exact ⟨_, rfl, hlow⟩
    rename_i e hsome
    obtain ⟨⟨i, rfl⟩, hactive, hle, -⟩ := Extents.nextFrom_eq_some hsome
    by_cases hroom : alignedOffsetExact arena.base c₀ alignment + len ≤ (extents i).offset
    · rw [if_pos hroom]
      exact ⟨_, rfl, hlow⟩
    -- what fits is not before the extent that leaves no room, so it is behind it
    rw [if_neg hroom]
    refine ih (fun o fits => ?_) ?_
    · have := hlow o fits
      rcases fits.apart i hactive with hbefore | hbehind
      · omega
      · exact hbehind
    · have := Extents.ahead_lt hactive (hge.trans hle)
        (Nat.lt_add_of_pos_right (hpos i hactive))
      omega

/-- **The arena search is complete, takes the lowest fit and ends.**  A call that fails
leaves the table as it was; one for which an entry is free and some offset fits does not
fail, and is placed no later than that offset. -/
theorem allocateExact_lowest (arena : DaxArena) (lock : Except ArenaError Unit)
    (size alignment : ℕ) (extents : Extents) (ha : isPowerOfTwo alignment = true)
    (hpos : ∀ i, (extents i).active = true → 0 < (extents i).roundedLen) :
    ∃ r extents', arena.allocateExact lock size alignment extents = some (r, extents') ∧
      (∀ e, r = .error e → extents' = extents) ∧
      ∀ slot o, lock = .ok () → (extents slot).active = false →
        arena.Fits extents (max alignment arena.alignment)
          (alignUpExact (max size 1) arena.alignment) o →
        ∃ slot' c, r = .ok (arena.base + c) ∧ c ≤ o ∧
          extents' = update extents slot'
            { offset := c, roundedLen := alignUpExact (max size 1) arena.alignment,
              requestedLen := max size 1, active := true } := by
  have hmax : 0 < max alignment arena.alignment := lt_max_of_lt_left (isPowerOfTwo.pos ha)
  obtain ⟨c, hseek, hlow⟩ : ∃ c, arena.seekExact extents (max alignment arena.alignment)
      (alignUpExact (max size 1) arena.alignment) (maxExtents + 1) 0 = some c ∧ ∀ o,
        arena.Fits extents (max alignment arena.alignment)
          (alignUpExact (max size 1) arena.alignment) o → c ≤ o :=
    seekExact_lowest hpos hmax (fun _ _ => Nat.zero_le _)
      (Nat.lt_succ_of_le (extents.ahead_le 0))
  rw [allocateExact, if_neg (by simp [ha])]
  dsimp only
  cases lock with
  | error e => exact ⟨_, _, rfl, fun _ _ => rfl, fun _ _ h => by cases h⟩
  | ok _ =>
    dsimp only
    cases hslot : extents.position fun extent => !extent.active with
    | none =>
      refine ⟨_, _, rfl, fun _ _ => rfl, fun slot _ _ hfree _ => ?_⟩
      have := Extents.position_eq_none hslot slot
      simp [hfree] at this
    | some slot' =>
      rw [hseek]
      dsimp only
      by_cases hend : c + alignUpExact (max size 1) arena.alignment ≤ arena.size
      · rw [if_pos hend]
        refine ⟨_, _, rfl, ?_, fun _ o _ _ fits => ⟨slot', c, rfl, hlow o fits, rfl⟩⟩
        intro e h
        cases h
      · rw [if_neg hend]
        refine ⟨_, _, rfl, fun _ _ => rfl, fun _ o _ _ fits => ?_⟩
        have := hlow o fits
        have := fits.inside
        omega

/-- Between two extents and behind the second the lower place is taken, and a request that
fits nowhere leaves the table alone. -/
theorem allocateExact_lowest_gap :
    let extents : Extents := fun i =>
      if i = ⟨5, by decide⟩ then ⟨0, 2 ^ 21, 1, true⟩
      else if i = ⟨2, by decide⟩ then ⟨2 ^ 23, 2 ^ 21, 1, true⟩ else .empty
    ∃ r extents', ArenaSession.example16M.allocateExact (.ok ()) (3 * 2 ^ 20) (2 ^ 22) extents
        = some (r, extents') ∧
      (∀ e, r = .error e → extents' = extents) ∧
      ∃ c, r = .ok (2 ^ 22 + c) ∧ c ≤ 2 ^ 22 := by
  intro extents
  obtain ⟨r, extents', hcall, herror, hfits⟩ := allocateExact_lowest ArenaSession.example16M (.ok ())
    (3 * 2 ^ 20) (2 ^ 22) extents (by decide) (by decide +kernel)
  refine ⟨r, extents', hcall, herror, ?_⟩
  obtain ⟨-, c, hr, hc, -⟩ := hfits ⟨0, by decide⟩ (2 ^ 22) rfl (by decide)
    ⟨by decide, by decide +kernel, by decide⟩
  exact ⟨c, hr, hc⟩

/-! ### The search of the code -/

theorem le_seekExact (ha : 0 < alignment)
    (h : arena.seekExact extents alignment len n c₀ = some c) :
    alignedOffsetExact arena.base c₀ alignment ≤ c := by
  induction n generalizing c₀ with
  | zero => cases h
  | succ n ih =>
    rw [seekExact] at h
    split at h
    · exact (Option.some.inj h).le
    rename_i e hsome
    obtain ⟨-, -, hle, -⟩ := Extents.nextFrom_eq_some hsome
    split at h
    · exact (Option.some.inj h).le
    · calc alignedOffsetExact arena.base c₀ alignment
          ≤ e.offset + e.roundedLen := hle.trans (Nat.le_add_right _ _)
        _ ≤ alignedOffsetExact arena.base (e.offset + e.roundedLen) alignment :=
            le_alignedOffsetExact ha
        _ ≤ c := ih h

/-- The loop of the code finds what the loop on naturals finds, if there is room behind it
for the extent and for one alignment. -/
theorem seek_of_seekExact (ha : isPowerOfTwo alignment = true)
    (hroom : arena.base + c + (alignment - 1) < usizeSize) (hend : c + len < usizeSize)
    (h : arena.seekExact extents alignment len n c₀ = some c) :
    arena.seek extents alignment len n c₀ = some (.ok c) := by
  have hpos := isPowerOfTwo.pos ha
  induction n generalizing c₀ with
  | zero => cases h
  | succ n ih =>
    -- no candidate is beyond the last one, so none of the additions overflows
    have hle := le_seekExact hpos h
    have hge : c₀ ≤ alignedOffsetExact arena.base c₀ alignment := le_alignedOffsetExact hpos
    have hc' : alignedOffset arena.base c₀ alignment
        = some (alignedOffsetExact arena.base c₀ alignment) :=
      (alignedOffset_eq_some ha).mpr ⟨rfl, by omega⟩
    rw [seekExact] at h
    rw [seek, hc']
    dsimp only at h ⊢
    cases hnext : extents.nextFrom (alignedOffsetExact arena.base c₀ alignment) with
    | none =>
      rw [hnext] at h
      cases h
      rfl
    | some e =>
      rw [hnext] at h
      dsimp only at h ⊢
      rw [Nat.mod_eq_of_lt (by omega)]
      split at h
      · rename_i hfit
        rw [if_pos hfit, Option.some.inj h]
      · rename_i hfit
        have hnext := (le_alignedOffsetExact hpos).trans (le_seekExact hpos h)
        rw [if_neg hfit, checkedAdd_eq_some.mpr ⟨rfl, by omega⟩]
        exact ih h

end DaxArena

end Cxlalloc.Preload
