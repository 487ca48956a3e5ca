/-
The alignment of what the preload library returns.

A call that asks for an alignment has three ways to be answered.  The arena places it at
an address with the alignment, libc does so by assumption, and the early buffer looks at
the size only: it hands out multiples of 16 bytes behind each other.  So once the library
is initialized every answer is aligned, and until then an answer is aligned just when the
next free byte of the early buffer happens to be.
-/
import Cxlalloc.Proofs.Interpose

namespace Cxlalloc.Preload

open Lib.Prog

namespace Api

/-- The alignment a call asks for, if it asks for one. -/
def alignment (platform : Platform) : Api → Option ℕ
  | .memalign alignment _ => some alignment
  | .alignedAlloc alignment _ => some alignment
  | .posixMemalign _ alignment _ => some alignment
  | .valloc _ => some platform.pageSize
  | .pvalloc _ => some platform.pageSize
  | _ => none

/-- The size such a call goes on with, if its own checks let it pass. -/
def accepted (platform : Platform) : Api → Option ℕ
  | .memalign _ size => some size
  | .alignedAlloc alignment size => if alignment = 0 ∨ size % alignment ≠ 0 then none else some size
  | .posixMemalign output alignment size =>
    if output = 0 ∨ alignment < 8 ∨ !isPowerOfTwo alignment then none else some size
  | .valloc size => some size
  | .pvalloc size => platform.pageRounded size
  | _ => none

end Api

variable {σ : Type} {process : Process σ} {w : World σ} {alignment size : ℕ}

/-- The early buffer has room for a request. -/
def World.EarlyRoom (w : World σ) (size : ℕ) : Prop :=
  max size 16 + 15 < usizeSize ∧ w.earlyOffset + (max size 16 + 15) / 16 * 16 ≤ earlySize

instance : Decidable (w.EarlyRoom size) :=
  inferInstanceAs (Decidable (_ ∧ _))

namespace Process

/-- Every answer of a call has the alignment. -/
def Honours (process : Process σ) (w : World σ) (api : Api) (alignment : ℕ) : Prop :=
  ∀ p w', (api.run process.platform).exec process.handle w = .ok (p, w') → p ≠ 0 → alignment ∣ p

/-! ### After initialization -/

section Initialized

variable {E : Fault → Prop}

theorem wp_fail_dvd {e : Errno} :
    wp process.handle (Platform.fail e) (fun p _ => alignment ∣ p) E w :=
  dvd_zero alignment

theorem wp_arenaAllocate_dvd {arena : DaxArena} :
    wp process.handle (lift (.arenaAllocate arena size alignment))
      (fun r _ => ∀ p, r = .ok p → alignment ∣ p) (fun _ => True) w := by
  rw [wp_lift, handle]
  dsimp only
  cases hcall : arena.allocate (process.real.lock w.libc).1 size alignment w.extents with
  | none => trivial
  | some r =>
    cases r with
    | error e => exact fun p h => by cases h
    | ok r =>
      intro p hp
      obtain rfl := Except.ok.inj hp
      exact (DaxArena.allocate_aligned hcall).1

theorem wp_routedAlignedAlloc_dvd
    (hlibc : ∀ a n s, isPowerOfTwo a = true → a ∣ (process.real.memalign a n s).1) :
    wp process.handle (Platform.routedAlignedAlloc alignment size process.state)
      (fun p _ => alignment ∣ p) (fun _ => True) w := by
  rw [Platform.routedAlignedAlloc]
  split
  · exact wp_fail_dvd
  rename_i hpow
  split
  · rw [wp_lift]
    exact hlibc _ _ _ (by simpa using hpow)
  split
  · exact wp_fail_dvd
  rw [wp_bind]
  refine wp_mono wp_arenaAllocate_dvd (fun r w' hr => ?_) fun _ h => h
  rcases r with e | p
  · cases e <;> exact wp_fail_dvd
  · exact hr p rfl

theorem wp_memalign_dvd (hinit : w.initialized = true)
    (hlibc : ∀ a n s, isPowerOfTwo a = true → a ∣ (process.real.memalign a n s).1) :
    wp process.handle (process.platform.memalign alignment size) (fun p _ => alignment ∣ p)
      (fun _ => True) w := by
  rw [Platform.memalign, wp_bind]
  refine process.dispatchRules.wp_state ?_
  rw [if_pos hinit]
  exact wp_routedAlignedAlloc_dvd hlibc

theorem wp_valloc_dvd (hinit : w.initialized = true)
    (hlibc : ∀ a n s, isPowerOfTwo a = true → a ∣ (process.real.memalign a n s).1) :
    wp process.handle (process.platform.valloc size) (fun p _ => process.platform.pageSize ∣ p)
      (fun _ => True) w := by
  rw [Platform.valloc, wp_bind]
  refine process.dispatchRules.wp_state ?_
  rw [if_pos hinit]
  exact wp_routedAlignedAlloc_dvd hlibc

theorem honours_of_initialized {api : Api} (hinit : w.initialized = true)
    (hlibc : ∀ a n s, isPowerOfTwo a = true → a ∣ (process.real.memalign a n s).1)
    (halign : api.alignment process.platform = some alignment) :
    process.Honours w api alignment := by
  have hwp : wp process.handle (api.run process.platform) (fun p _ => alignment ∣ p)
      (fun _ => True) w := by
    cases api with
    | memalign a size =>
      obtain rfl := Option.some.inj halign
      exact wp_memalign_dvd hinit hlibc
    | alignedAlloc a size =>
      obtain rfl := Option.some.inj halign
      rw [Api.run, Platform.alignedAlloc, wp_ite]
      split
      · exact wp_fail_dvd
      · exact wp_memalign_dvd hinit hlibc
    | posixMemalign output a size =>
      obtain rfl := Option.some.inj halign
      rw [Api.run, wp_bind, Platform.posixMemalign, wp_ite]
      split
      · exact dvd_zero a
      rw [wp_bind]
      refine wp_mono (wp_memalign_dvd hinit hlibc) (fun p w' hp => ?_) fun _ h => h
      rw [wp_ite]
      split
      · exact dvd_zero a
      · exact hp
    | valloc size =>
      obtain rfl := Option.some.inj halign
      exact wp_valloc_dvd hinit hlibc
    | pvalloc size =>
      obtain rfl := Option.some.inj halign
      rw [Api.run, Platform.pvalloc]
      split
      · exact wp_fail_dvd
      · exact wp_valloc_dvd hinit hlibc
    | _ => cases halign
  intro p w' hexec _
  have hdvd := wp_ok hwp hexec
  exact hdvd

end Initialized

/-! ### Before initialization -/

/-- The pointer the early buffer answers with. -/
def earlyAnswer (process : Process σ) (w : World σ) (size : ℕ) : ℕ :=
  if w.EarlyRoom size then process.platform.earlyBase + w.earlyOffset else 0

theorem earlyAnswer_ne_zero : process.earlyAnswer w size ≠ 0 ↔ w.EarlyRoom size := by
  have := process.platform.earlyBase_pos
  rw [earlyAnswer]
  split
  · exact ⟨fun _ => ‹_›, fun _ => by omega⟩
  · exact ⟨fun h => absurd rfl h, fun h => absurd h ‹_›⟩

theorem wp_earlyMalloc_eq :
    wp process.handle (process.platform.earlyMalloc size)
      (fun p _ => p = process.earlyAnswer w size) (fun _ => False) w := by
  by_cases hlt : max size 16 + 15 < usizeSize
  case neg =>
    have hnone : checkedAdd (max size 16) 15 = none := if_neg hlt
    rw [Platform.earlyMalloc, hnone]
    exact (if_neg fun h => hlt h.1).symm
  have hsome : (checkedAdd (max size 16) 15).map (maskDown · 16)
      = some ((max size 16 + 15) / 16 * 16) := by
    rw [checkedAdd, if_pos hlt, Option.map_some, maskDown_eq hlt (by decide) (by decide)]
  rw [Platform.earlyMalloc, hsome]
  dsimp only
  rw [wp_bind, wp_lift, handle]
  by_cases hroom : w.earlyOffset + (max size 16 + 15) / 16 * 16 ≤ earlySize
  · have hstop : (checkedAdd w.earlyOffset ((max size 16 + 15) / 16 * 16)).filter
        (fun stop => decide (stop ≤ earlySize))
        = some (w.earlyOffset + (max size 16 + 15) / 16 * 16) :=
      Option.filter_eq_some_iff.mpr ⟨checkedAdd_eq_some.mpr
        ⟨rfl, hroom.trans_lt (by decide)⟩, by simpa using hroom⟩
    rw [hstop]
    exact (if_pos ⟨hlt, hroom⟩).symm
  · have hstop : (checkedAdd w.earlyOffset ((max size 16 + 15) / 16 * 16)).filter
        (fun stop => decide (stop ≤ earlySize)) = none := by
      rw [Option.filter_eq_none_iff]
      intro stop hstop
      obtain ⟨rfl, -⟩ := checkedAdd_eq_some.mp hstop
      simpa using hroom
    rw [hstop]
    exact (if_neg fun h => hroom h.2).symm

/-- Until the constructor has run, a call that passes its own checks is answered from the
early buffer. -/
theorem wp_run_earlyAnswer {api : Api} (hinit : w.initialized = false)
    (halign : api.alignment process.platform = some alignment) :
    wp process.handle (api.run process.platform)
      (fun p _ => p = (api.accepted process.platform).elim 0 (process.earlyAnswer w))
      (fun _ => False) w := by
  have hstate : ¬w.initialized = true := by simp [hinit]
  have hmemalign : ∀ alignment size, wp process.handle (process.platform.memalign alignment size)
      (fun p _ => p = process.earlyAnswer w size) (fun _ => False) w := by
    intro alignment size
    rw [Platform.memalign, wp_bind]
    refine process.dispatchRules.wp_state ?_
    rw [if_neg hstate]
    exact wp_earlyMalloc_eq
  have hvalloc : ∀ size, wp process.handle (process.platform.valloc size)
      (fun p _ => p = process.earlyAnswer w size) (fun _ => False) w := by
    intro size
    rw [Platform.valloc, wp_bind]
    refine process.dispatchRules.wp_state ?_
    rw [if_neg hstate]
    exact wp_earlyMalloc_eq
  cases api with
  | memalign a size => exact hmemalign a size
  | alignedAlloc a size =>
    rw [Api.run, Platform.alignedAlloc, Api.accepted, wp_ite]
    split
    · rfl
    · exact hmemalign a size
  | posixMemalign output a size =>
    rw [Api.run, wp_bind, Platform.posixMemalign, Api.accepted, wp_ite]
    split
    · rfl
    rw [wp_bind]
    refine wp_mono (hmemalign a size) (fun p w' hp => ?_) fun _ h => h
    rw [wp_ite]
    split
    · rename_i hnull
      exact hnull.symm.trans hp
    · exact hp
  | valloc size => exact hvalloc size
  | pvalloc size =>
    rw [Api.run, Platform.pvalloc, Api.accepted]
    split
    · rename_i hnone
      rw [hnone]
      rfl
    · rename_i rounded hrounded
      rw [hrounded]
      exact hvalloc rounded
  | _ => cases halign

/-- **Alignment.**  Whatever state the process is in, the answer of an aligned allocation
has the alignment just when the library is initialized, or the call is refused, or the
next free byte of the early buffer has it. -/
theorem honours_iff (process : Process σ)
    (hlibc : ∀ a n s, isPowerOfTwo a = true → a ∣ (process.real.memalign a n s).1) (w : World σ)
    (api : Api) (alignment : ℕ) (halign : api.alignment process.platform = some alignment) :
    process.Honours w api alignment ↔
      w.initialized = true ∨ ∀ size, api.accepted process.platform = some size →
        w.EarlyRoom size → alignment ∣ process.platform.earlyBase + w.earlyOffset := by
  cases hinit : w.initialized with
  | true => exact iff_of_true (honours_of_initialized hinit hlibc halign) (.inl rfl)
  | false =>
    obtain ⟨p, w', hexec, hp⟩ := wp_returns (wp_run_earlyAnswer hinit halign)
    have hhonours : process.Honours w api alignment ↔ (p ≠ 0 → alignment ∣ p) := by
      constructor
      · exact fun h => h p w' hexec
      · intro h q w'' hq
        obtain ⟨rfl, -⟩ := Prod.mk.inj (Except.ok.inj (hexec.symm.trans hq))
        exact h
    rw [hhonours, hp]
    simp only [Bool.false_eq_true, false_or]
    cases hsize : api.accepted process.platform with
    | none => exact ⟨fun _ _ h => (by cases h), fun _ h => absurd rfl h⟩
    | some size =>
      rw [Option.elim_some, earlyAnswer_ne_zero]
      constructor
      · intro h size' hsize' hroom
        obtain rfl := Option.some.inj hsize'
        have := h hroom
        rwa [earlyAnswer, if_pos hroom] at this
      · intro h hroom
        rw [earlyAnswer, if_pos hroom]
        exact h size rfl hroom

end Process

/-! ### Fixed calls -/

/-- A libc that aligns, behind an early buffer that is aligned to 16 bytes only. -/
def alignedProcess : Process ℕ where
  platform := { earlyBase := 2 ^ 40 + 16, pageSize := 4096, earlyBase_pos := by decide }
  state := exampleProcess.state
  real := { RealAlloc.bump with memalign := fun a _ n => (a * (2 ^ 50 + n), n + 1) }
  libc_apart := by
    intro p n n' hp h
    have hge : 2 ^ 50 ≤ p := by
      rcases h with ⟨_, h⟩ | ⟨_, _, h⟩ | ⟨_, _, h⟩ | ⟨a, _, h⟩
      · exact (Prod.mk.inj h).1 ▸ Nat.le_add_right _ _
      · exact (Prod.mk.inj h).1 ▸ Nat.le_add_right _ _
      · exact (Prod.mk.inj h).1 ▸ Nat.le_add_right _ _
      · obtain rfl := (Prod.mk.inj h).1
        have ha : 0 < a := Nat.pos_of_ne_zero fun h => hp (by rw [h, Nat.zero_mul])
        exact (Nat.le_add_right _ _).trans (Nat.le_mul_of_pos_left _ ha)
    constructor
    · rw [State.arenaOwns, exampleProcess, Option.any_some, DaxArena.owns_eq_false_iff]
      refine .inr (le_trans ?_ hge)
      decide
    · simp only [Platform.isEarlyPointer, Bool.and_eq_false_iff, decide_eq_false_iff_not, not_lt]
      refine .inr (le_trans ?_ hge)
      decide
  early_apart := by
    intro p hp
    simp only [Platform.isEarlyPointer, Bool.and_eq_true, decide_eq_true_eq] at hp
    rw [State.arenaOwns, exampleProcess, Option.any_some, DaxArena.owns_eq_false_iff]
    refine .inr (le_trans ?_ hp.1)
    decide

/-- Before initialization an alignment of 16 is honoured, afterwards also one of 4 MiB. -/
theorem honours_iff_both :
    alignedProcess.Honours (PreloadSession.fresh 0).world (.posixMemalign 8 16 100) 16 ∧
      alignedProcess.Honours { (PreloadSession.fresh 0).world with initialized := true }
        (.memalign (2 ^ 22) (2 ^ 21)) (2 ^ 22) := by
  have hlibc : ∀ a n s, isPowerOfTwo a = true → a ∣ (alignedProcess.real.memalign a n s).1 :=
    fun a _ n _ => dvd_mul_right a (2 ^ 50 + n)
  exact ⟨(Process.honours_iff alignedProcess hlibc _ _ 16 rfl).mpr
      (.inr fun _ _ _ => by decide),
    (Process.honours_iff alignedProcess hlibc _ _ (2 ^ 22) rfl).mpr (.inl rfl)⟩

/-- Before initialization `memalign(64, 1)` is answered with the first bytes of the early
buffer. -/
theorem early_misaligned :
    (∀ a n s, isPowerOfTwo a = true → a ∣ (alignedProcess.real.memalign a n s).1) ∧
    16 ∣ alignedProcess.platform.earlyBase ∧
    ∃ p w', ((Api.memalign 64 1).run alignedProcess.platform).exec alignedProcess.handle
        (PreloadSession.fresh 0).world = .ok (p, w') ∧ p ≠ 0 ∧ ¬64 ∣ p := by
  refine ⟨fun a _ n _ => dvd_mul_right a (2 ^ 50 + n), by decide, 2 ^ 40 + 16, _, rfl, ?_⟩
  decide

end Cxlalloc.Preload
