/-
The extents of the preload arena.

Whatever is asked for, an extent stays inside the arena, its address has the alignment
that was asked for, and no two active extents start at the same offset.  That they are
disjoint is another matter.  The search for a gap looks only at extents that start at or
after the candidate, so it relies on every extent that starts before the candidate
ending there too.  `ClearBelow` says so; skipping an extent keeps it, rounding the
candidate up to an alignment larger than the arena's does not.
-/
import Cxlalloc.Preload.DaxArena
import Mathlib.Logic.Relation
import Mathlib.Data.Set.Function
import Mathlib.Data.Fintype.Card
import Mathlib.Tactic.Ring

namespace Cxlalloc.Preload

open Relation
open Function

/-! ### Alignment -/

theorem isPowerOfTwo_iff {n : ℕ} : isPowerOfTwo n = true ↔ ∃ k, n = 2 ^ k := by
  rw [isPowerOfTwo, decide_eq_true_iff]
  constructor
  · exact fun h => ⟨_, h.symm⟩
  · rintro ⟨k, rfl⟩
    rw [Nat.log2_two_pow]

theorem isPowerOfTwo.pos {n : ℕ} (h : isPowerOfTwo n = true) : 0 < n := by
  obtain ⟨k, rfl⟩ := isPowerOfTwo_iff.mp h
  exact Nat.two_pow_pos k

/-- Of two powers of two the smaller divides the larger. -/
theorem isPowerOfTwo.dvd_max {a b : ℕ} (ha : isPowerOfTwo a = true) (hb : isPowerOfTwo b = true) :
    a ∣ max a b ∧ b ∣ max a b := by
  obtain ⟨k, rfl⟩ := isPowerOfTwo_iff.mp ha
  obtain ⟨l, rfl⟩ := isPowerOfTwo_iff.mp hb
  rcases Nat.le_total k l with h | h
  · rw [max_eq_right (Nat.pow_le_pow_right (by decide) h)]
    exact ⟨Nat.pow_dvd_pow 2 h, dvd_rfl⟩
  · rw [max_eq_left (Nat.pow_le_pow_right (by decide) h)]
    exact ⟨dvd_rfl, Nat.pow_dvd_pow 2 h⟩

theorem isPowerOfTwo.max {a b : ℕ} (ha : isPowerOfTwo a = true) (hb : isPowerOfTwo b = true) :
    isPowerOfTwo (max a b) = true := by
  rcases max_choice a b with h | h <;> rw [h] <;> assumption

/-- The mask of an alignment is the word's complement of its low bits. -/
theorem maskDown_eq {v a : ℕ} (hv : v < usizeSize) (ha : isPowerOfTwo a = true)
    (hle : a ≤ usizeSize) : maskDown v a = v / a * a := by
  obtain ⟨k, rfl⟩ := isPowerOfTwo_iff.mp ha
  have hk : k ≤ 64 := (Nat.pow_le_pow_iff_right (by decide)).mp hle
  refine Nat.eq_of_testBit_eq fun i => ?_
  have hmask : (usizeSize - 1 - (2 ^ k - 1)).testBit i = (decide (i < 64) && !decide (i < k)) := by
    have := Nat.testBit_two_pow_sub_succ (x := 2 ^ k - 1) (n := 64)
      (by have : 2 ^ k ≤ 2 ^ 64 := Nat.pow_le_pow_right (by decide) hk
          have := Nat.two_pow_pos k
          omega) i
    rw [show usizeSize - 1 - (2 ^ k - 1) = 2 ^ 64 - (2 ^ k - 1 + 1) by unfold usizeSize; omega,
      this, Nat.testBit_two_pow_sub_one]
  rw [maskDown, Nat.testBit_and, hmask, Nat.testBit_mul_two_pow, Nat.testBit_div_two_pow]
  by_cases hik : i < k
  · simp [hik, Nat.not_le.mpr hik]
  · have hki : k ≤ i := Nat.le_of_not_lt hik
    rw [Nat.sub_add_cancel hki]
    by_cases hi : i < 64
    · simp [hik, hki, hi]
    · have : v.testBit i = false := Nat.testBit_lt_two_pow
        (hv.trans_le (Nat.pow_le_pow_right (by decide) (Nat.le_of_not_lt hi)))
      simp [this]

theorem checkedAdd_eq_some {a b c : ℕ} :
    checkedAdd a b = some c ↔ a + b = c ∧ a + b < usizeSize := by
  unfold checkedAdd
  split <;> simp [*]

theorem checkedSub_eq_some {a b c : ℕ} : checkedSub a b = some c ↔ b ≤ a ∧ a - b = c := by
  unfold checkedSub
  split <;> simp_all

/-- Rounding up goes to the next multiple. -/
theorem alignUp_spec {v a c : ℕ} (ha : isPowerOfTwo a = true) (h : alignUp v a = some c) :
    a ∣ c ∧ v ≤ c ∧ c < v + a ∧ c < usizeSize := by
  simp only [alignUp, Option.bind_eq_bind, Option.bind_eq_some_iff, checkedSub_eq_some,
    checkedAdd_eq_some, Option.pure_def, Option.some.injEq] at h
  obtain ⟨_, ⟨hpos, rfl⟩, w, ⟨rfl, hw⟩, rfl⟩ := h
  rw [maskDown_eq hw ha (by omega)]
  have hdiv := Nat.div_add_mod (v + (a - 1)) a
  have hmod := Nat.mod_lt (v + (a - 1)) hpos
  rw [Nat.mul_comm] at hdiv
  exact ⟨dvd_mul_left _ _, by omega, by omega, by omega⟩

/-- The offset of the next address with an alignment. -/
theorem alignedOffset_spec {base offset a c : ℕ} (ha : isPowerOfTwo a = true)
    (h : alignedOffset base offset a = some c) :
    a ∣ base + c ∧ offset ≤ c ∧ c < offset + a ∧ base + c < usizeSize := by
  simp only [alignedOffset, Option.bind_eq_bind, Option.bind_eq_some_iff, checkedSub_eq_some,
    checkedAdd_eq_some] at h
  obtain ⟨_, ⟨rfl, -⟩, x, hx, hle, rfl⟩ := h
  obtain ⟨hdvd, hge, hlt, hx⟩ := alignUp_spec ha hx
  rw [Nat.add_sub_cancel' hle]
  exact ⟨hdvd, by omega, by omega, hx⟩

/-- An aligned offset stays where it is. -/
theorem alignedOffset_of_dvd {base offset a c : ℕ} (ha : isPowerOfTwo a = true) (hbase : a ∣ base)
    (hoffset : a ∣ offset) (h : alignedOffset base offset a = some c) : c = offset := by
  obtain ⟨hdvd, hge, hlt, -⟩ := alignedOffset_spec ha h
  have hc : a ∣ c - offset := Nat.dvd_sub ((Nat.dvd_add_right hbase).mp hdvd) hoffset
  have := Nat.eq_zero_of_dvd_of_lt hc (by omega)
  omega

/-! ### The table -/

variable {i : Fin maxExtents}

namespace Extents

variable {arena : DaxArena} {extents : Extents} {candidate : ℕ} {p : Extent → Bool}

theorem position_eq_some (h : extents.position p = some i) : p (extents i) = true := by
  simpa using List.find?_some h

theorem position_eq_none (h : extents.position p = none) (i : Fin maxExtents) :
    p (extents i) = false := by
  simpa using List.find?_eq_none.mp h i (List.mem_finRange i)

/-- The extent `next_from` answers is the first of those that start late enough. -/
theorem nextFrom_eq_some {e : Extent} (h : extents.nextFrom candidate = some e) :
    (∃ i, extents i = e) ∧ e.active = true ∧ candidate ≤ e.offset ∧
      ∀ i, (extents i).active = true → candidate ≤ (extents i).offset →
        e.offset ≤ (extents i).offset := by
  have hmem := List.argmin_mem (Option.mem_def.mpr h)
  simp only [List.mem_filter, List.mem_map, List.mem_finRange, true_and, Bool.and_eq_true,
    decide_eq_true_eq] at hmem
  refine ⟨hmem.1, hmem.2.1, hmem.2.2, fun i hactive hle => ?_⟩
  refine List.le_of_mem_argmin ?_ (Option.mem_def.mpr h)
  simp [hactive, hle]

theorem nextFrom_eq_none (h : extents.nextFrom candidate = none) (i : Fin maxExtents)
    (hactive : (extents i).active = true) : (extents i).offset < candidate := by
  rw [nextFrom, List.argmin_eq_none, List.filter_eq_nil_iff] at h
  have := h (extents i) (List.mem_map.mpr ⟨i, List.mem_finRange i, rfl⟩)
  simpa [hactive] using this

/-- The entries in use. -/
def active (extents : Extents) : Set (Fin maxExtents) :=
  {i | (extents i).active = true}

/-- The address an entry starts at. -/
def address (arena : DaxArena) (extents : Extents) (i : Fin maxExtents) : ℕ :=
  arena.base + (extents i).offset

/-- What holds of a table whatever was asked for. -/
structure Ok (arena : DaxArena) (extents : Extents) : Prop where
  pos : ∀ i, (extents i).active = true → 0 < (extents i).roundedLen
  inside : ∀ i, (extents i).active = true →
    (extents i).offset + (extents i).roundedLen ≤ arena.size
  inj : ∀ i j, (extents i).active = true → (extents j).active = true →
    (extents i).offset = (extents j).offset → i = j

/-- The extents are made of whole units of the arena, and no two of them meet. -/
structure Separate (arena : DaxArena) (extents : Extents) : Prop where
  offset_aligned : ∀ i, (extents i).active = true → arena.alignment ∣ (extents i).offset
  len_aligned : ∀ i, (extents i).active = true → arena.alignment ∣ (extents i).roundedLen
  disjoint : ∀ i j, i ≠ j → (extents i).active = true → (extents j).active = true →
    (extents i).offset + (extents i).roundedLen ≤ (extents j).offset ∨
      (extents j).offset + (extents j).roundedLen ≤ (extents i).offset

/-- Every extent that starts before an offset also ends there. -/
def ClearBelow (extents : Extents) (candidate : ℕ) : Prop :=
  ∀ i, (extents i).active = true → (extents i).offset < candidate →
    (extents i).offset + (extents i).roundedLen ≤ candidate

/-- How many extents the search may still have to pass. -/
def ahead (extents : Extents) (candidate : ℕ) : ℕ :=
  (Finset.univ.filter fun i => (extents i).active = true ∧ candidate ≤ (extents i).offset).card

theorem ahead_le (extents : Extents) (candidate : ℕ) : extents.ahead candidate ≤ maxExtents := by
  refine (Finset.card_le_univ _).trans ?_
  rw [Fintype.card_fin]

/-- Passing an extent leaves fewer ahead. -/
theorem ahead_lt {c c' : ℕ} (hactive : (extents i).active = true) (hc : c ≤ (extents i).offset)
    (hc' : (extents i).offset < c') : extents.ahead c' < extents.ahead c := by
  refine Finset.card_lt_card (Finset.ssubset_iff_of_subset ?_ |>.mpr ⟨i, ?_, ?_⟩)
  · intro j hj
    simp only [Finset.mem_filter, Finset.mem_univ, true_and] at hj ⊢
    exact ⟨hj.1, by omega⟩
  · simp [hactive, hc]
  · simp [hactive, hc']

theorem Separate.clearBelow_next (sep : Separate arena extents) {c : ℕ}
    (hclear : extents.ClearBelow c) (hactive : (extents i).active = true)
    (hfirst : ∀ j, (extents j).active = true → c ≤ (extents j).offset →
      (extents i).offset ≤ (extents j).offset) (hc : c ≤ (extents i).offset) :
    extents.ClearBelow ((extents i).offset + (extents i).roundedLen) := by
  intro j hj hlt
  by_cases hij : i = j
  · rw [hij]
  by_cases hjc : (extents j).offset < c
  · have := hclear j hj hjc
    omega
  · have := hfirst j hj (by omega)
    rcases sep.disjoint i j hij hactive hj with h | h <;> omega

end Extents

/-! ### The search -/

namespace DaxArena

variable {arena : DaxArena} {extents extents' : Extents} {alignment len n c₀ c : ℕ}

/-- A candidate the search settles on is aligned, and what starts behind it leaves room. -/
theorem seek_spec (ha : isPowerOfTwo alignment = true)
    (h : arena.seek extents alignment len n c₀ = some (.ok c)) :
    alignment ∣ arena.base + c ∧ arena.base + c < usizeSize ∧
      ∀ i, (extents i).active = true → c ≤ (extents i).offset →
        (c + len) % usizeSize ≤ (extents i).offset := by
  induction n generalizing c₀ with
  | zero => cases h
  | succ n ih =>
    rw [seek] at h
    split at h
    · cases h
    rename_i c' hc'
    obtain ⟨hdvd, -, -, hlt⟩ := alignedOffset_spec ha hc'
    split at h
    · rename_i hnone
      obtain rfl := Except.ok.inj (Option.some.inj h)
      refine ⟨hdvd, hlt, fun i hactive hle => ?_⟩
      have := Extents.nextFrom_eq_none hnone i hactive
      omega
    · rename_i e hsome
      obtain ⟨-, -, -, hfirst⟩ := Extents.nextFrom_eq_some hsome
      split at h
      · rename_i hroom
        obtain rfl := Except.ok.inj (Option.some.inj h)
        exact ⟨hdvd, hlt, fun i hactive hle => hroom.trans (hfirst i hactive hle)⟩
      · split at h
        · cases h
        · exact ih h

/-- With the arena's own alignment, the search never leaves an extent behind that reaches
past the candidate. -/
theorem seek_clearBelow (sep : extents.Separate arena) (hclear : extents.ClearBelow c₀)
    (hdvd : arena.alignment ∣ c₀) (h : arena.seek extents arena.alignment len n c₀ = some (.ok c)) :
    extents.ClearBelow c ∧ arena.alignment ∣ c := by
  induction n generalizing c₀ with
  | zero => cases h
  | succ n ih =>
    rw [seek] at h
    split at h
    · cases h
    rename_i c' hc'
    obtain rfl := alignedOffset_of_dvd arena.alignment_pow arena.base_aligned hdvd hc'
    split at h
    · obtain rfl := Except.ok.inj (Option.some.inj h)
      exact ⟨hclear, hdvd⟩
    · rename_i e hsome
      obtain ⟨⟨i, rfl⟩, hactive, hle, hfirst⟩ := Extents.nextFrom_eq_some hsome
      split at h
      · obtain rfl := Except.ok.inj (Option.some.inj h)
        exact ⟨hclear, hdvd⟩
      · split at h
        · cases h
        · rename_i c'' hc''
          obtain ⟨rfl, -⟩ := checkedAdd_eq_some.mp hc''
          exact ih (sep.clearBelow_next hclear hactive hfirst hle)
            (Nat.dvd_add (sep.offset_aligned i hactive) (sep.len_aligned i hactive)) h

/-- Every round passes an extent, so the search ends. -/
theorem seek_returns (ok : extents.Ok arena) (ha : isPowerOfTwo alignment = true) (len : ℕ)
    (hn : extents.ahead c₀ < n) : ∃ r, arena.seek extents alignment len n c₀ = some r := by
  induction n generalizing c₀ with
  | zero => cases hn
  | succ n ih =>
    rw [seek]
    split
    · exact ⟨_, rfl⟩
    rename_i c' hc'
    obtain ⟨-, hge, -, -⟩ := alignedOffset_spec ha hc'
    split
    · exact ⟨_, rfl⟩
    rename_i e hsome
    obtain ⟨⟨i, rfl⟩, hactive, hle, -⟩ := Extents.nextFrom_eq_some hsome
    split
    · exact ⟨_, rfl⟩
    split
    · exact ⟨_, rfl⟩
    rename_i c'' hc''
    obtain ⟨rfl, -⟩ := checkedAdd_eq_some.mp hc''
    have hpos := ok.pos i hactive
    have := Extents.ahead_lt hactive (hge.trans hle) (Nat.lt_add_of_pos_right hpos)
    exact ih (by omega)

/-! ### One call -/

/-- What it takes for an allocation to succeed. -/
theorem allocate_eq_ok_iff {lock : Except ArenaError Unit} {size p : ℕ} :
    arena.allocate lock size alignment extents = some (.ok (p, extents')) ↔
      isPowerOfTwo alignment = true ∧ lock = .ok () ∧ ∃ len slot c,
        alignUp (max size 1) arena.alignment = some len ∧
        extents.position (fun extent => !extent.active) = some slot ∧
        arena.seek extents (max alignment arena.alignment) len (maxExtents + 1) 0
          = some (.ok c) ∧
        c + len < usizeSize ∧ c + len ≤ arena.size ∧ p = arena.base + c ∧
        extents' = update extents slot ⟨c, len, max size 1, true⟩ := by
  constructor
  · intro h
    rw [allocate] at h
    split at h
    · cases h
    rename_i hpow
    dsimp only at h
    split at h
    · cases h
    rename_i len hround
    split at h
    · cases h
    split at h
    · cases h
    rename_i slot hslot
    split at h
    · cases h
    · cases h
    rename_i c hseek
    split at h
    · cases h
    rename_i stop hstop
    obtain ⟨hadd, hsize⟩ := Option.filter_eq_some_iff.mp hstop
    obtain ⟨rfl, hlt⟩ := checkedAdd_eq_some.mp hadd
    obtain ⟨rfl, rfl⟩ := Prod.mk.inj (Except.ok.inj (Option.some.inj h))
    exact ⟨by simpa using hpow, rfl, len, slot, c, hround, hslot, hseek, hlt, by simpa using hsize,
      rfl, rfl⟩
  · rintro ⟨hpow, rfl, len, slot, c, hround, hslot, hseek, hlt, hsize, rfl, rfl⟩
    have hadd : (checkedAdd c len).filter (fun stop => decide (stop ≤ arena.size))
        = some (c + len) :=
      Option.filter_eq_some_iff.mpr ⟨checkedAdd_eq_some.mpr ⟨rfl, hlt⟩, by simpa using hsize⟩
    simp [allocate, hpow, hround, hslot, hseek, hadd]

/-- What an allocation that succeeded did: it put an extent of whole units, found by the
search, into an entry that was free. -/
theorem allocate_eq_ok {lock : Except ArenaError Unit} {size p : ℕ}
    (h : arena.allocate lock size alignment extents = some (.ok (p, extents'))) :
    ∃ slot roundedLen candidate, isPowerOfTwo alignment = true ∧
      arena.alignment ∣ roundedLen ∧ max size 1 ≤ roundedLen ∧
      (extents slot).active = false ∧
      arena.seek extents (max alignment arena.alignment) roundedLen (maxExtents + 1) 0
        = some (.ok candidate) ∧
      candidate + roundedLen < usizeSize ∧ candidate + roundedLen ≤ arena.size ∧
      p = arena.base + candidate ∧
      extents' = update extents slot ⟨candidate, roundedLen, max size 1, true⟩ := by
  obtain ⟨hpow, -, len, slot, c, hround, hslot, hseek, hlt, hsize, rfl, rfl⟩ :=
    allocate_eq_ok_iff.mp h
  obtain ⟨hdvd, hge, -, -⟩ := alignUp_spec arena.alignment_pow hround
  exact ⟨slot, len, c, hpow, hdvd, hge, by simpa using Extents.position_eq_some hslot, hseek, hlt,
    hsize, rfl, rfl⟩

theorem allocate_returns (arena : DaxArena) (lock : Except ArenaError Unit) (size alignment : ℕ)
    (ok : extents.Ok arena) : ∃ r, arena.allocate lock size alignment extents = some r := by
  rw [allocate]
  split
  · exact ⟨_, rfl⟩
  rename_i hpow
  dsimp only
  split
  · exact ⟨_, rfl⟩
  split
  · exact ⟨_, rfl⟩
  split
  · exact ⟨_, rfl⟩
  rename_i roundedLen _ _ _ _ _
  obtain ⟨r, hr⟩ := seek_returns ok (isPowerOfTwo.max (by simpa using hpow) arena.alignment_pow)
    roundedLen (Nat.lt_succ_of_le (extents.ahead_le 0))
  rw [hr]
  cases r with
  | error e => exact ⟨_, rfl⟩
  | ok candidate =>
    dsimp only
    split <;> exact ⟨_, rfl⟩

theorem pointerOffset_eq_some {p offset : ℕ} :
    arena.pointerOffset p = some offset ↔ p = arena.base + offset ∧ offset < arena.size := by
  simp only [pointerOffset, Option.bind_eq_bind, Option.bind_eq_some_iff, checkedSub_eq_some]
  constructor
  · rintro ⟨_, ⟨hle, rfl⟩, h⟩
    split at h
    · obtain rfl := Option.some.inj h
      exact ⟨by omega, by assumption⟩
    · cases h
  · rintro ⟨rfl, hlt⟩
    exact ⟨offset, ⟨by omega, by omega⟩, if_pos hlt⟩

theorem owns_eq_false_iff {p : ℕ} :
    arena.owns p = false ↔ p < arena.base ∨ arena.base + arena.size ≤ p := by
  rw [owns, Option.isSome_eq_false_iff, Option.isNone_iff_eq_none, Option.eq_none_iff_forall_ne_some]
  constructor
  · intro h
    by_contra hin
    rw [not_or, not_lt, not_le] at hin
    exact h (p - arena.base) (pointerOffset_eq_some.mpr ⟨by omega, by omega⟩)
  · intro h offset heq
    obtain ⟨rfl, hlt⟩ := pointerOffset_eq_some.mp heq
    omega

/-- What a deallocation that succeeded did: it emptied an entry that starts at the pointer. -/
theorem deallocate_eq_ok {lock : Except ArenaError Unit} {p : ℕ}
    (h : arena.deallocate lock p extents = .ok extents') :
    ∃ slot, (extents slot).active = true ∧ p = arena.base + (extents slot).offset ∧
      extents' = update extents slot .empty := by
  rw [deallocate] at h
  split at h
  · cases h
  rename_i offset hoffset
  obtain ⟨rfl, -⟩ := pointerOffset_eq_some.mp hoffset
  cases lock with
  | error e => cases h
  | ok u =>
    simp only [bind, Except.bind] at h
    split at h
    · cases h
    rename_i slot hslot
    have hslot := Extents.position_eq_some hslot
    simp only [Bool.and_eq_true, decide_eq_true_eq] at hslot
    exact ⟨slot, hslot.1, by rw [hslot.2], (Except.ok.inj h).symm⟩

/-- In a table that is in order, an extent is found by its address. -/
theorem position_offset (ok : extents.Ok arena) (hi : (extents i).active = true) :
    extents.position (fun e => e.active && decide (e.offset = (extents i).offset)) = some i := by
  cases hpos : extents.position (fun e => e.active && decide (e.offset = (extents i).offset)) with
  | none => simpa [hi] using Extents.position_eq_none hpos i
  | some j =>
    have hj := Extents.position_eq_some hpos
    simp only [Bool.and_eq_true, decide_eq_true_eq] at hj
    rw [ok.inj j i hj.1 hi hj.2]

theorem pointerOffset_active (ok : extents.Ok arena) (hi : (extents i).active = true) :
    arena.pointerOffset (arena.base + (extents i).offset) = some (extents i).offset := by
  have hpos := ok.pos i hi
  have hinside := ok.inside i hi
  exact pointerOffset_eq_some.mpr ⟨rfl, by omega⟩

theorem deallocate_active (ok : extents.Ok arena) (hi : (extents i).active = true) :
    arena.deallocate (.ok ()) (arena.base + (extents i).offset) extents
      = .ok (update extents i .empty) := by
  simp only [deallocate, pointerOffset_active ok hi, position_offset ok hi]
  rfl

theorem deallocate_refused (ok : extents.Ok arena)
    (hi : (extents i).active = true) (e : ArenaError) :
    arena.deallocate (.error e) (arena.base + (extents i).offset) extents = .error e := by
  simp only [deallocate, pointerOffset_active ok hi]
  rfl

end DaxArena

/-! ### One step of the table -/

namespace Extents

variable {arena : DaxArena} {extents : Extents} {slot : Fin maxExtents} {e : Extent}

theorem Ok.empty : Extents.empty.Ok arena := by
  constructor <;> simp [Extents.empty, Extent.empty]

theorem Separate.empty : Extents.empty.Separate arena := by
  constructor <;> simp [Extents.empty, Extent.empty]

/-- Split the entries of an updated table into the new one and the old ones. -/
theorem forall_update {P : Extent → Prop} :
    (∀ i, (update extents slot e i).active = true → P (update extents slot e i)) ↔
      (e.active = true → P e) ∧ ∀ i, i ≠ slot → (extents i).active = true → P (extents i) := by
  constructor
  · intro h
    refine ⟨by simpa using h slot, fun i hi hactive => ?_⟩
    have := h i
    rw [update_of_ne hi] at this
    exact this hactive
  · rintro ⟨hnew, hold⟩ i hactive
    by_cases hi : i = slot
    · subst hi
      rw [update_self] at hactive ⊢
      exact hnew hactive
    · rw [update_of_ne hi] at hactive ⊢
      exact hold i hi hactive

/-- The same for two different entries and a symmetric relation. -/
theorem forall_update₂ {P : Extent → Extent → Prop} (hsymm : ∀ e f, P e f → P f e)
    (hnew : e.active = true → ∀ i, i ≠ slot → (extents i).active = true → P e (extents i))
    (hold : ∀ i j, i ≠ j → (extents i).active = true → (extents j).active = true →
      P (extents i) (extents j)) (i j : Fin maxExtents) (hij : i ≠ j)
    (hi : (update extents slot e i).active = true) (hj : (update extents slot e j).active = true) :
    P (update extents slot e i) (update extents slot e j) := by
  by_cases his : i = slot
  · subst his
    rw [update_self] at hi ⊢
    rw [update_of_ne (Ne.symm hij)] at hj ⊢
    exact hnew hi j (Ne.symm hij) hj
  · rw [update_of_ne his] at hi ⊢
    by_cases hjs : j = slot
    · subst hjs
      rw [update_self] at hj ⊢
      exact hsymm _ _ (hnew hj i his hi)
    · rw [update_of_ne hjs] at hj ⊢
      exact hold i j hij hi hj

theorem Ok.update (ok : extents.Ok arena)
    (hnew : e.active = true → 0 < e.roundedLen ∧ e.offset + e.roundedLen ≤ arena.size ∧
      ∀ i, i ≠ slot → (extents i).active = true → e.offset ≠ (extents i).offset) :
    Ok arena (update extents slot e) where
  pos := (forall_update (P := fun e => 0 < e.roundedLen)).mpr
    ⟨fun h => (hnew h).1, fun i _ => ok.pos i⟩
  inside := (forall_update (P := fun e => e.offset + e.roundedLen ≤ arena.size)).mpr
    ⟨fun h => (hnew h).2.1, fun i _ => ok.inside i⟩
  inj := by
    intro i j hi hj hoffset
    by_contra hij
    refine forall_update₂ (P := fun e f => e.offset ≠ f.offset) (fun _ _ h => h.symm)
      (fun h => (hnew h).2.2) (fun i j hij hi hj h => hij (ok.inj i j hi hj h)) i j hij hi hj hoffset

theorem Separate.update (sep : extents.Separate arena)
    (hnew : e.active = true → arena.alignment ∣ e.offset ∧ arena.alignment ∣ e.roundedLen ∧
      ∀ i, i ≠ slot → (extents i).active = true →
        e.offset + e.roundedLen ≤ (extents i).offset ∨
          (extents i).offset + (extents i).roundedLen ≤ e.offset) :
    Separate arena (update extents slot e) where
  offset_aligned := (forall_update (P := fun e => arena.alignment ∣ e.offset)).mpr
    ⟨fun h => (hnew h).1, fun i _ => sep.offset_aligned i⟩
  len_aligned := (forall_update (P := fun e => arena.alignment ∣ e.roundedLen)).mpr
    ⟨fun h => (hnew h).2.1, fun i _ => sep.len_aligned i⟩
  disjoint := forall_update₂ (P := fun e f =>
      e.offset + e.roundedLen ≤ f.offset ∨ f.offset + f.roundedLen ≤ e.offset)
    (fun _ _ h => h.symm) (fun h => (hnew h).2.2) sep.disjoint

end Extents

namespace DaxArena

variable {arena : DaxArena} {extents extents' : Extents} {lock : Except ArenaError Unit}
  {size alignment p : ℕ}

/-- The search ends at no extent's own offset: the extent there would leave no room. -/
theorem allocate_ok (ok : extents.Ok arena)
    (h : arena.allocate lock size alignment extents = some (.ok (p, extents'))) :
    extents'.Ok arena := by
  obtain ⟨slot, len, c, hpow, -, hlen, -, hseek, hlt, hsize, -, rfl⟩ := allocate_eq_ok h
  obtain ⟨-, -, hroom⟩ := seek_spec (isPowerOfTwo.max hpow arena.alignment_pow) hseek
  refine ok.update fun _ => ⟨by dsimp only; omega, hsize, fun i _ hactive heq => ?_⟩
  have := hroom i hactive heq.le
  rw [Nat.mod_eq_of_lt hlt] at this
  dsimp only at heq
  omega

theorem allocate_separate (sep : extents.Separate arena) (halign : alignment ≤ arena.alignment)
    (h : arena.allocate lock size alignment extents = some (.ok (p, extents'))) :
    extents'.Separate arena := by
  obtain ⟨slot, len, c, hpow, hdvd, -, -, hseek, hlt, -, -, rfl⟩ := allocate_eq_ok h
  rw [max_eq_right halign] at hseek
  obtain ⟨-, -, hroom⟩ := seek_spec arena.alignment_pow hseek
  obtain ⟨hclear, hc⟩ := seek_clearBelow sep (fun i _ hi => absurd hi (Nat.not_lt_zero _))
    (dvd_zero _) hseek
  refine sep.update fun _ => ⟨hc, hdvd, fun i _ hactive => ?_⟩
  rcases Nat.lt_or_ge (extents i).offset c with hi | hi
  · exact .inr (hclear i hactive hi)
  · have := hroom i hactive hi
    rw [Nat.mod_eq_of_lt hlt] at this
    exact .inl this

theorem deallocate_ok (ok : extents.Ok arena) (h : arena.deallocate lock p extents = .ok extents') :
    extents'.Ok arena := by
  obtain ⟨slot, -, -, rfl⟩ := deallocate_eq_ok h
  exact ok.update fun h => by simp [Extent.empty] at h

/-- A returned address is in the arena. -/
theorem allocate_owns (h : arena.allocate lock size alignment extents = some (.ok (p, extents'))) :
    arena.owns p = true := by
  obtain ⟨slot, len, c, -, -, hlen, -, -, -, hsize, rfl, -⟩ := allocate_eq_ok h
  rw [owns, pointerOffset_eq_some.mpr ⟨rfl, by omega⟩, Option.isSome_some]

/-- A returned address has both alignments. -/
theorem allocate_aligned
    (h : arena.allocate lock size alignment extents = some (.ok (p, extents'))) :
    alignment ∣ p ∧ arena.alignment ∣ p := by
  obtain ⟨slot, len, c, hpow, -, -, -, hseek, -, -, rfl, -⟩ := allocate_eq_ok h
  obtain ⟨hdvd, -, -⟩ := seek_spec (isPowerOfTwo.max hpow arena.alignment_pow) hseek
  obtain ⟨ha, hb⟩ := isPowerOfTwo.dvd_max hpow arena.alignment_pow
  exact ⟨ha.trans hdvd, hb.trans hdvd⟩

end DaxArena

/-! ### Runs -/

namespace ArenaSession

variable {arena : DaxArena} {s s' : ArenaSession} {P : ArenaCall → Prop}

/-- What holds of a session whatever was asked for. -/
structure Tracks (arena : DaxArena) (s : ArenaSession) : Prop where
  ok : s.extents.Ok arena
  live : Set.BijOn (s.extents.address arena) s.extents.active ↑s.live

theorem Tracks.fresh : Tracks arena fresh where
  ok := .empty
  live := by
    have hempty : Extents.empty.active = ∅ := by
      ext i
      simp [Extents.active, Extents.empty, Extent.empty]
    show Set.BijOn _ Extents.empty.active ((∅ : Finset ℕ) : Set ℕ)
    rw [hempty, Finset.coe_empty]
    exact Set.bijOn_empty _

/-- A new entry adds its address to the live ones. -/
theorem Tracks.allocate {slot : Fin maxExtents} {e : Extent} (ht : s.Tracks arena)
    (hslot : (s.extents slot).active = false) (he : e.active = true)
    (ok : Extents.Ok arena (update s.extents slot e)) :
    Tracks arena ⟨update s.extents slot e, insert (arena.base + e.offset) s.live⟩ := by
  have hactive : Extents.active (update s.extents slot e) = insert slot s.extents.active := by
    ext i
    by_cases hi : i = slot
    · subst hi
      simp [Extents.active, he]
    · simp [Extents.active, hi]
  have hnot : ∀ i ∈ s.extents.active, i ≠ slot := by
    rintro i hi rfl
    simp [Extents.active, hslot] at hi
  have hself : Extents.address arena (update s.extents slot e) slot = arena.base + e.offset := by
    rw [Extents.address, update_self]
  have hframe : Set.EqOn (s.extents.address arena)
      (Extents.address arena (update s.extents slot e)) s.extents.active := by
    intro i hi
    rw [Extents.address, Extents.address, update_of_ne (hnot i hi)]
  have hnew : arena.base + e.offset ∉ (↑s.live : Set ℕ) := by
    intro hmem
    obtain ⟨i, hi, heq⟩ := ht.live.surjOn hmem
    refine hnot i hi (ok.inj i slot ?_ ?_ ?_)
    · rw [update_of_ne (hnot i hi)]
      exact hi
    · rw [update_self]
      exact he
    · rw [update_of_ne (hnot i hi), update_self]
      exact Nat.add_left_cancel heq
  refine ⟨ok, ?_⟩
  show Set.BijOn (Extents.address arena (update s.extents slot e)) _ _
  rw [hactive, Finset.coe_insert, ← hself]
  rw [← hself] at hnew
  exact (ht.live.congr hframe).insert hnew

/-- An emptied entry takes its address from the live ones. -/
theorem Tracks.deallocate {slot : Fin maxExtents} (ht : s.Tracks arena)
    (hslot : (s.extents slot).active = true)
    (ok : Extents.Ok arena (update s.extents slot .empty)) :
    Tracks arena
      ⟨update s.extents slot .empty, s.live.erase (arena.base + (s.extents slot).offset)⟩ := by
  have hactive : Extents.active (update s.extents slot .empty) = s.extents.active \ {slot} := by
    ext i
    by_cases hi : i = slot
    · subst hi
      simp [Extents.active, Extent.empty]
    · simp [Extents.active, hi]
  refine ⟨ok, ?_⟩
  show Set.BijOn (Extents.address arena (update s.extents slot .empty)) _ _
  rw [hactive, Finset.coe_erase]
  refine (ht.live.sdiff_singleton hslot).congr ?_
  intro i hi
  rw [Extents.address, Extents.address, update_of_ne hi.2]

/-- What one call does to the session. -/
theorem call_cases {c : ArenaCall} (h : s.call arena c = some s') :
    s' = s ∨
    (∃ lock size alignment p extents, c = .allocate lock size alignment ∧
      arena.allocate lock size alignment s.extents = some (.ok (p, extents)) ∧
      s' = ⟨extents, insert p s.live⟩) ∨
    (∃ lock p extents, c = .deallocate lock p ∧
      arena.deallocate lock p s.extents = .ok extents ∧ s' = ⟨extents, s.live.erase p⟩) := by
  cases c with
  | allocate lock size alignment =>
    obtain ⟨r, hr, hs'⟩ := Option.map_eq_some_iff.mp h
    cases r with
    | error e => exact .inl hs'.symm
    | ok r => exact .inr (.inl ⟨lock, size, alignment, r.1, r.2, rfl, hr, hs'.symm⟩)
  | deallocate lock p =>
    rw [call] at h
    split at h
    · exact .inr (.inr ⟨lock, p, _, rfl, by assumption, (Option.some.inj h).symm⟩)
    · exact .inl (Option.some.inj h).symm

theorem Tracks.step {c : ArenaCall} (ht : s.Tracks arena) (h : s.call arena c = some s') :
    s'.Tracks arena := by
  obtain rfl | ⟨lock, size, alignment, p, extents, -, hal, rfl⟩ | ⟨lock, p, extents, -, hde, rfl⟩ :=
    call_cases h
  · exact ht
  · have ok := DaxArena.allocate_ok ht.ok hal
    obtain ⟨slot, len, c, -, -, -, hslot, -, -, -, rfl, rfl⟩ := DaxArena.allocate_eq_ok hal
    exact ht.allocate hslot rfl ok
  · have ok := DaxArena.deallocate_ok ht.ok hde
    obtain ⟨slot, hslot, rfl, rfl⟩ := DaxArena.deallocate_eq_ok hde
    exact ht.deallocate hslot ok

theorem separate_step {c : ArenaCall} (sep : s.extents.Separate arena)
    (hc : WithinAlignment arena c) (h : s.call arena c = some s') : s'.extents.Separate arena := by
  obtain rfl | ⟨lock, size, alignment, p, extents, rfl, hal, rfl⟩ | ⟨lock, p, extents, -, hde, rfl⟩ :=
    call_cases h
  · exact sep
  · exact DaxArena.allocate_separate sep hc hal
  · obtain ⟨slot, -, -, rfl⟩ := DaxArena.deallocate_eq_ok hde
    exact sep.update fun h => by simp [Extent.empty] at h

theorem tracks_run (hrun : ReflTransGen (StepWhere P arena) fresh s) : s.Tracks arena := by
  induction hrun with
  | refl => exact .fresh
  | tail _ hstep ih =>
    obtain ⟨c, -, hcall⟩ := hstep
    exact ih.step hcall

theorem separate_run (hrun : ReflTransGen (StepWhere (WithinAlignment arena) arena) fresh s) :
    s.extents.Separate arena := by
  induction hrun with
  | refl => exact .empty
  | tail _ hstep ih =>
    obtain ⟨c, hc, hcall⟩ := hstep
    exact separate_step ih hc hcall

/-- The extents in use are pairwise disjoint and inside the arena, they correspond one to
one to the pointers that are held, and whatever is asked for next is answered, with an
address that has both alignments if it is answered with one. -/
structure Sound (arena : DaxArena) (s : ArenaSession) : Prop where
  disjoint : ∀ i j, i ≠ j → (s.extents i).active = true → (s.extents j).active = true →
    (s.extents i).offset + (s.extents i).roundedLen ≤ (s.extents j).offset ∨
      (s.extents j).offset + (s.extents j).roundedLen ≤ (s.extents i).offset
  inside : ∀ i, (s.extents i).active = true →
    (s.extents i).offset + (s.extents i).roundedLen ≤ arena.size
  live : Set.BijOn (s.extents.address arena) s.extents.active ↑s.live
  answered : ∀ c, ∃ s', s.call arena c = some s'
  aligned : ∀ lock size alignment p extents,
    arena.allocate lock size alignment s.extents = some (.ok (p, extents)) →
      alignment ∣ p ∧ arena.alignment ∣ p

/-- **The extents stay disjoint as long as no request asks for more than the alignment of
the arena.** -/
theorem sound_of_withinAlignment
    (hrun : ReflTransGen (StepWhere (WithinAlignment arena) arena) fresh s) : s.Sound arena := by
  have ht := tracks_run hrun
  constructor
  case disjoint => exact (separate_run hrun).disjoint
  case inside => exact ht.ok.inside
  case live => exact ht.live
  case answered =>
    intro c
    cases c with
    | allocate lock size alignment =>
      obtain ⟨r, hr⟩ := arena.allocate_returns lock size alignment ht.ok
      rw [call, hr]
      exact ⟨_, rfl⟩
    | deallocate lock p =>
      rw [call]
      split <;> exact ⟨_, rfl⟩
  case aligned => exact fun _ _ _ _ _ h => DaxArena.allocate_aligned h

/-! ### Fixed runs -/

theorem run_of_calls {cs : List ArenaCall} (hP : ∀ c ∈ cs, P c)
    (h : cs.foldlM (call arena) s = some s') : ReflTransGen (StepWhere P arena) s s' := by
  induction cs generalizing s with
  | nil =>
    obtain rfl := Option.some.inj h
    exact .refl
  | cons c cs ih =>
    obtain ⟨s₁, hcall, hrest⟩ := Option.bind_eq_some_iff.mp h
    exact .head ⟨c, hP c (by simp), hcall⟩ (ih (fun c hc => hP c (by simp [hc])) hrest)

/-- An arena of 16 MiB in units of 2 MiB. -/
def example16M : DaxArena where
  base := 2 ^ 22
  size := 2 ^ 24
  alignment := 2 ^ 21
  base_pos := by decide
  base_lt := by decide
  size_lt := by decide
  alignment_lt := by decide
  alignment_pow := by decide
  base_aligned := by decide

/-- Two extents, of which the first is freed and its gap taken again. -/
theorem sound_of_withinAlignment_reuse : ∃ s,
    ReflTransGen (StepWhere (WithinAlignment example16M) example16M) fresh s ∧
      s.live = {2 ^ 22 + 2 ^ 22, 2 ^ 22} ∧ s.Sound example16M := by
  let calls : List ArenaCall := [.allocate (.ok ()) (3 * 2 ^ 20) 4096,
    .allocate (.ok ()) (2 ^ 21) 4096, .deallocate (.ok ()) (2 ^ 22),
    .allocate (.ok ()) (3 * 2 ^ 20) 16]
  have heval : (calls.foldlM (call example16M) fresh).map live
      = some {2 ^ 22 + 2 ^ 22, 2 ^ 22} := by decide +kernel
  obtain ⟨s, hs, hlive⟩ := Option.map_eq_some_iff.mp heval
  have hwithin : ∀ c ∈ calls, WithinAlignment example16M c := by
    simp [calls, WithinAlignment, example16M]
  have hrun := run_of_calls hwithin hs
  exact ⟨s, hrun, hlive, sound_of_withinAlignment hrun⟩

/-- Behind an extent of 2 MiB and one of 4 MiB, a request with an alignment of 4 MiB is
placed into the second half of the 4 MiB. -/
theorem overlap_of_alignment : ∃ s,
    ReflTransGen (StepWhere (fun _ => True) example16M) fresh s ∧
      ∃ i j, i ≠ j ∧ (s.extents i).active = true ∧ (s.extents j).active = true ∧
        (s.extents i).offset ≤ (s.extents j).offset ∧
        (s.extents j).offset + (s.extents j).roundedLen
          ≤ (s.extents i).offset + (s.extents i).roundedLen ∧
        0 < (s.extents j).roundedLen := by
  let calls : List ArenaCall := [.allocate (.ok ()) (2 ^ 21) 16, .allocate (.ok ()) (2 ^ 22) 16,
    .allocate (.ok ()) (2 ^ 21) (2 ^ 22)]
  let second : Fin maxExtents := ⟨1, by decide⟩
  let third : Fin maxExtents := ⟨2, by decide⟩
  have heval : (calls.foldlM (call example16M) fresh).map
      (fun s => (s.extents second, s.extents third))
      = some (⟨2 ^ 21, 2 ^ 22, 2 ^ 22, true⟩, ⟨2 ^ 22, 2 ^ 21, 2 ^ 21, true⟩) := by decide +kernel
  obtain ⟨s, hs, hentries⟩ := Option.map_eq_some_iff.mp heval
  obtain ⟨h₁, h₂⟩ := Prod.mk.inj hentries
  refine ⟨s, run_of_calls (fun _ _ => trivial) hs, second, third, by decide, ?_⟩
  rw [h₁, h₂]
  decide

end ArenaSession

end Cxlalloc.Preload
