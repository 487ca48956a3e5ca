/-
Reallocation in the preload library.

`routed_realloc` has three sources and two destinations.  Unless libc moves the block
itself, it asks for a new block, copies, and gives the old one back; how much it copies is
computed differently for each source.  It is always at least what was asked for, and the
two blocks do not meet, so the contents arrive.

The size of an arena block is read under the lock of the arena, and the block is given back
under it.  A lock that is not granted counts as a block of no size: nothing is copied then, and
the contents are lost.  Nor is the block given back without it.  These two locks are all that can
go wrong (`Served`): if the one of a new block is not granted, there is none.
-/
import Cxlalloc.Proofs.Bytes

namespace Cxlalloc.Preload

open Function
open Lib.Prog
open Relation

/-! ### Copies -/

namespace Bytes

variable {bytes : Bytes} {destination source size i a : ℕ}

theorem scalarCopy_succ : scalarCopy destination source (size + 1) bytes
    = update (scalarCopy destination source size bytes) (destination + size)
        (scalarCopy destination source size bytes (source + size)) := by
  simp [scalarCopy, List.range_succ]

/-- A copy changes its destination only. -/
theorem scalarCopy_outside (h : a < destination ∨ destination + size ≤ a) :
    scalarCopy destination source size bytes a = bytes a := by
  induction size with
  | zero => rfl
  | succ size ih => rw [scalarCopy_succ, update_of_ne (by omega), ih (by omega)]

/-- A byte that is not overwritten before it is read arrives. -/
theorem scalarCopy_inside (hi : i < size) (h : source + i < destination ∨ destination ≤ source) :
    scalarCopy destination source size bytes (destination + i) = bytes (source + i) := by
  induction size with
  | zero => cases hi
  | succ size ih =>
    rw [scalarCopy_succ]
    by_cases his : i = size
    · subst his
      rw [update_self, scalarCopy_outside (by omega)]
    · rw [update_of_ne (by omega), ih (by omega)]

end Bytes

namespace Process

variable {τ : Type} {process : Process (τ × Bytes)} {held : Blocks τ} {w w' w'' : World (τ × Bytes)}
  {x y : Producer} {f : Option ℕ} {p q r m k n i a size : ℕ} {E : Fault → Prop}

/-! ### What libc leaves alone -/

/-- Libc leaves the contents of a block alone, unless it is given the block. -/
theorem HeldBy.untouched (contract : process.Contract held) (sane : process.Sane w)
    (h : process.HeldBy held w x p m) (hp : some p ≠ f) (hi : i < m) :
    process.Apart held w.libc.1 f (p + i) := by
  cases x with
  | libc =>
    obtain ⟨u, hu⟩ := h
    have hle := contract.usable _ p m u hu
    exact .inr ⟨p, m, u, hp, hu, by omega, by omega⟩
  | early => exact .inl (.inr (h.span contract sane (Nat.le_add_right p i) (by omega)))
  | arena => exact .inl (.inl (h.span contract sane (Nat.le_add_right p i) (by omega)))

/-- What happens to the state of libc within a reallocation: it is asked for a block or for
the size of one, the lock is taken, bytes change. -/
def Moves (process : Process (τ × Bytes)) (s s' : τ × Bytes) : Prop :=
  (∃ n, s' = (process.real.malloc n s).2) ∨ (∃ p, s' = (process.real.mallocUsableSize p s).2) ∨
    s' = (process.real.lock s).2 ∨ s'.1 = s.1

/-- The extents of the arena are apart and made of whole units. -/
def Separate (process : Process (τ × Bytes)) (w : World (τ × Bytes)) : Prop :=
  ∀ arena, process.state.arena = some arena → w.extents.Separate arena

/-! ### A new block -/

/-- What `routed_malloc` does, whatever it answers. -/
structure Given (process : Process (τ × Bytes)) (held : Blocks τ) (w : World (τ × Bytes))
    (size q : ℕ) (w' : World (τ × Bytes)) : Prop where
  carries : process.Carries held none w w'
  moves : ReflTransGen process.Moves w.libc w'.libc
  bytes : ∀ a, process.Apart held w.libc.1 none a → w'.bytes a = w.bytes a
  separate : process.Separate w'
  null : q = 0 → w'.extents = w.extents
  block : q ≠ 0 → process.Vacant held w q ∧
    ∃ y, y ≠ .early ∧ process.HeldBy held w' y q size

/-- Nothing but `errno` and the lock. -/
theorem Given.of_lock (sane : process.Sane w) (sep : process.Separate w)
    (hgoes : process.Goes w w') (hextents : w'.extents = w.extents)
    (hheld : held w'.libc.1 = held w.libc.1) (hbytes : w'.bytes = w.bytes)
    (hmoves : ReflTransGen process.Moves w.libc w'.libc) : process.Given held w size 0 w' where
  carries := .of_eq sane hgoes hextents hheld
  moves := hmoves
  bytes a _ := by rw [hbytes]
  separate arena harena := hextents ▸ sep arena harena
  null _ := hextents
  block h := absurd rfl h

variable {Q : ℕ → World (τ × Bytes) → Prop}

theorem wp_routedMalloc (contract : process.Contract held)
    (halign : ∀ arena, process.state.arena = some arena → 16 ≤ arena.alignment)
    (sane : process.Sane w) (sep : process.Separate w)
    (hQ : ∀ q w', process.Given held w size q w' → Q q w') :
    wp process.handleBytes (Platform.routedMalloc size process.state) Q E w := by
  rw [Platform.routedMalloc]
  split
  · have hands := contract.malloc size w.libc
    obtain ⟨hcarries, hnew, hvacant⟩ := hands.carries contract sane (.inl ⟨size, rfl⟩)
    refine Rules.wp_event rfl (hQ _ _ ⟨hcarries, .single (.inl ⟨size, produce_libc ..⟩), ?_, ?_,
      fun _ => produce_extents .., fun hne => ⟨hvacant hne, .libc, by decide, (hnew hne).held⟩⟩)
    · intro a ha
      rw [World.bytes, produce_libc]
      exact hands.bytes a ha
    · intro arena harena
      rw [produce_extents]
      exact sep arena harena
  have hfail : ∀ {w'}, process.Given held w size 0 w' →
      wp process.handleBytes (Platform.fail .enomem) Q E w' := by
    intro w' given
    rw [Platform.fail, wp_bind]
    refine Rules.wp_event rfl (hQ 0 _ ?_)
    exact ⟨given.carries.trans (.of_eq given.carries.sane
      (given.carries.sane.inv.goes_of_eq rfl rfl) rfl rfl), given.moves, given.bytes,
      given.separate, given.null, fun h => absurd rfl h⟩
  split
  · exact hfail (.of_lock sane sep sane.inv.goes_self rfl rfl rfl .refl)
  rename_i arena harena
  obtain ⟨r, w', hev, hgoes, hlibc, hr⟩ := sane.inv.arenaAllocate harena size 16
  have hheld : held w'.libc.1 = held w.libc.1 := by rw [hlibc, (contract.lock w.libc).1]
  have hbytes : w'.bytes = w.bytes := by rw [World.bytes, hlibc, (contract.lock w.libc).2]; rfl
  have hmoves : ReflTransGen process.Moves w.libc w'.libc := .single (.inr (.inr (.inl hlibc)))
  rw [wp_bind]
  refine Rules.wp_event hev ?_
  obtain ⟨e, rfl, hextents⟩ | ⟨q, rfl, hne, -, hallocate⟩ := hr
  · exact hfail (.of_lock sane sep hgoes hextents hheld hbytes hmoves)
  · obtain ⟨hcarries, hblock, hvacant⟩ :=
      Carries.allocate contract sane hgoes harena hheld hallocate
    refine hQ q w' ⟨hcarries, hmoves, fun a _ => by rw [hbytes], fun arena' harena' => ?_,
      fun h => absurd h hne, fun _ => ⟨hvacant, .arena, by decide, hblock⟩⟩
    obtain rfl := Option.some.inj (harena.symm.trans harena')
    exact DaxArena.allocate_separate (sep arena harena) (halign arena harena) hallocate

/-- A new block meets none that was held before. -/
theorem Given.apart (contract : process.Contract held) (given : process.Given held w size q w')
    (hq : q ≠ 0) (hr : process.HeldBy held w x r k) : q + size ≤ r ∨ r + k ≤ q := by
  obtain ⟨hvacant, y, hy, hblock⟩ := given.block hq
  have hne : r ≠ q := by
    rintro rfl
    exact hvacant x k hr
  exact (HeldBy.apart contract given.carries.sane given.separate
    (given.carries.held x r k (Option.some_ne_none _) hr) hblock hne hy).symm

/-- A copy into a new block brings the contents of an old one. -/
theorem Given.copy (contract : process.Contract held) (sane : process.Sane w)
    (given : process.Given held w size q w') (hq : q ≠ 0) (hp : process.HeldBy held w x p m)
    (hn : i < n) (hi : i < min m size) : w'.bytes.scalarCopy q p n (q + i) = w.bytes (p + i) := by
  have hapart := given.apart contract hq hp
  rw [Bytes.scalarCopy_inside (by omega) (by omega)]
  exact given.bytes _ (hp.untouched contract sane (Option.some_ne_none _) (by omega))

/-! ### Giving a block back -/

/-- A block of the arena is given back if and only if the lock is granted. -/
theorem HeldBy.deallocated (contract : process.Contract held) (sane : process.Sane w)
    (hp : process.HeldBy held w .arena p m) {arena : DaxArena}
    (harena : process.state.arena = some arena) (hgoes : process.Goes w w')
    (hlibc : w'.libc = (process.real.lock w.libc).2)
    (hr : (∃ e, arena.deallocate (process.real.lock w.libc).1 p w.extents = .error e ∧
        w'.extents = w.extents) ∨
      arena.deallocate (process.real.lock w.libc).1 p w.extents = .ok w'.extents) :
    process.Carries held (some p) w w' ∧
      ((process.real.lock w.libc).1 = .ok () ↔ process.Vacant held w' p) := by
  have hregion := hp.region contract sane
  have hheld : held w'.libc.1 = held w.libc.1 := by rw [hlibc, (contract.lock w.libc).1]
  obtain ⟨arena', i, harena', hi, rfl, -⟩ := id hp
  obtain rfl := Option.some.inj (harena.symm.trans harena')
  have table := sane.inv.table arena harena
  cases hlock : (process.real.lock w.libc).1 with
  | ok u =>
    rw [hlock, DaxArena.deallocate_active table hi] at hr
    obtain ⟨e, he, -⟩ | hok := hr
    · cases he
    have hextents := Except.ok.inj hok
    have hcarries : process.Carries held (some _) w w' := .deallocate sane hgoes harena hheld
      (hextents ▸ DaxArena.deallocate_active table hi)
    refine ⟨hcarries, iff_of_true rfl (vacant_of_region contract hcarries.sane hregion ?_)⟩
    rintro k ⟨arena', j, harena', hj, hoffset, -⟩
    obtain rfl := Option.some.inj (harena.symm.trans harena')
    rw [← hextents] at hj hoffset
    by_cases hji : j = i
    · subst hji
      rw [update_self] at hj
      cases hj
    · rw [update_of_ne hji] at hj hoffset
      exact hji (table.inj j i hj hi (by omega))
  | error e =>
    rw [hlock, DaxArena.deallocate_refused table hi] at hr
    obtain ⟨-, -, hextents⟩ | hok := hr
    · have hcarries : process.Carries held none w w' := .of_eq sane hgoes hextents hheld
      refine ⟨hcarries.weaken, iff_of_false (fun h => by cases h) fun hvacant => ?_⟩
      exact hvacant .arena m (hcarries.held _ _ m (Option.some_ne_none _) hp)
    · cases hok

theorem wp_routedFree {Q : Unit → World (τ × Bytes) → Prop} (contract : process.Contract held)
    (sane : process.Sane w) (hmem : (p, x) ∈ w.returned) (hp : process.HeldBy held w x p m)
    (hearly : ¬process.platform.isEarlyPointer p = true)
    (hQ : ∀ w', process.Carries held (some p) w w' →
      ((process.state.arenaOwns p = true → (process.real.lock w.libc).1 = .ok ()) ↔
        process.Vacant held w' p) →
      (∀ a, process.Apart held w.libc.1 (some p) a → w'.bytes a = w.bytes a) → Q () w') :
    wp process.handleBytes (process.platform.routedFree p process.state) Q E w := by
  have hregion := hp.region contract sane
  have hdispatch := hregion.dispatch hearly
  rw [Platform.routedFree, if_neg (not_or.mpr ⟨hp.ne_zero contract, hearly⟩)]
  split
  · rename_i arena hfilter
    rw [hfilter] at hdispatch
    obtain ⟨harena, rfl⟩ := hdispatch
    have howns : process.state.arenaOwns p = true := hregion
    obtain ⟨r, w', hev, hgoes, hlibc, hr⟩ := sane.inv.arenaDeallocate harena hmem
    obtain ⟨hcarries, hgone⟩ := hp.deallocated contract sane harena hgoes hlibc hr
    have hgone : (process.state.arenaOwns p = true → (process.real.lock w.libc).1 = .ok ()) ↔
        process.Vacant held w' p := by rw [imp_iff_right howns, hgone]
    have hbytes : w'.bytes = w.bytes := by rw [World.bytes, hlibc, (contract.lock w.libc).2]; rfl
    rw [wp_bind]
    refine Rules.wp_event hev ?_
    cases r with
    | ok u => exact hQ w' hcarries hgone fun a _ => by rw [hbytes]
    | error e =>
      refine Rules.wp_event rfl (hQ _ (hcarries.trans_none ?_) hgone fun a _ => ?_)
      · exact .of_eq hcarries.sane (hcarries.sane.inv.goes_of_eq rfl rfl) rfl rfl
      · exact congrFun hbytes a
  · rename_i hfilter
    rw [hfilter] at hdispatch
    subst hdispatch
    have hcarries := contract.carries_free sane hp
    obtain ⟨u, hu⟩ := hp
    obtain ⟨hheld, hbytes⟩ := contract.free p m u w.libc hu
    have howns : ¬process.state.arenaOwns p = true := by rw [hregion.1]; decide
    refine Rules.wp_event (sane.inv.handTo hmem) (hQ _ hcarries (iff_of_true
      (fun h => absurd h howns) (vacant_of_region contract hcarries.sane hregion ?_)) hbytes)
    rintro k ⟨v, hv⟩
    rw [hheld, update_self] at hv
    cases hv

/-! ### Reallocation -/

/-- What a reallocation does in any case: a new block meets no other one, and without one all
stays as it is. -/
structure Resized (process : Process (τ × Bytes)) (held : Blocks τ) (w : World (τ × Bytes))
    (p m size q : ℕ) (w' : World (τ × Bytes)) : Prop where
  block : q ≠ 0 → ∃ y, process.HeldBy held w' y q size
  apart : q ≠ 0 → ∀ x r k, process.HeldBy held w x r k →
    (r = p → process.platform.isEarlyPointer p = true) → q + size ≤ r ∨ r + k ≤ q
  kept : q = 0 → (∃ x, process.HeldBy held w' x p m) ∧
    (∀ i < m, w'.bytes (p + i) = w.bytes (p + i)) ∧ w'.extents = w.extents

/-- The contents have arrived in the new block, and the old one is gone.  Libc may resize a block
where it is. -/
def Moved (process : Process (τ × Bytes)) (held : Blocks τ) (w : World (τ × Bytes))
    (p m size q : ℕ) (w' : World (τ × Bytes)) : Prop :=
  q ≠ 0 → (∀ i < min m size, w'.bytes (q + i) = w.bytes (p + i)) ∧
    (¬process.platform.isEarlyPointer p = true →
      process.Vacant held w' p ∨ q = p ∧ process.state.arenaOwns p = false)

/-- Only the blocks and the bytes count, not what else libc has. -/
theorem Resized.before {l : τ × Bytes} (hheld : held l.1 = held w.libc.1)
    (hbytes : l.2 = w.libc.2) (h : process.Resized held { w with libc := l } p m size q w') :
    process.Resized held w p m size q w' := by
  have hread : World.bytes { w with libc := l } = w.bytes := hbytes
  refine ⟨h.block, fun hq x r k hr => h.apart hq x r k ?_, hread ▸ h.kept⟩
  cases x with
  | early => exact hr
  | arena => exact hr
  | libc => rwa [HeldBy, ← hheld] at hr

theorem Given.resized_null (contract : process.Contract held) (sane : process.Sane w)
    (given : process.Given held w size 0 w') (hp : process.HeldBy held w x p m) :
    process.Resized held w p m size 0 w' where
  block h := absurd rfl h
  apart h := absurd rfl h
  kept _ := ⟨⟨x, given.carries.held x p m (Option.some_ne_none _) hp⟩,
    fun _ hi => given.bytes _ (hp.untouched contract sane (Option.some_ne_none _) hi), given.null rfl⟩

/-- What it takes to move a block whose size is taken for `oldSize`: if there is a new block,
what is not copied is there already, and the lock is granted when a block of the arena is given
back. -/
def Passes (process : Process (τ × Bytes)) (w : World (τ × Bytes)) (p m oldSize size : ℕ) : Prop :=
  wp process.handleBytes (Platform.routedMalloc size process.state) (fun q w₁ => q ≠ 0 →
    (∀ i < min m size, oldSize ≤ i → w₁.bytes (q + i) = w.bytes (p + i)) ∧
      (process.state.arenaOwns p = true → (process.real.lock
        (w₁.withBytes (w₁.bytes.scalarCopy q p (min oldSize size))).libc).1 = .ok ()))
    (fun _ => False) w

/-- Libc resizes the block. -/
theorem Contract.resized (contract : process.Contract held) (sane : process.Sane w)
    (sep : process.Separate w) (hp : process.HeldBy held w .libc p m) (hsize : 0 < size) :
    let r := process.real.realloc p size w.libc
    process.Resized held w p m size r.1 (produce { w with libc := r.2 } r.1 .libc) ∧
      process.Moved held w p m size r.1 (produce { w with libc := r.2 } r.1 .libc) := by
  intro r
  have hregion : process.Region p .libc := hp.region contract sane
  obtain ⟨hcarries, hkept, hnew⟩ := contract.carries_realloc sane hp hsize
  have hlibc : (produce { w with libc := r.2 } r.1 .libc).libc = r.2 := produce_libc ..
  have hextents : (produce { w with libc := r.2 } r.1 .libc).extents = w.extents :=
    produce_extents ..
  have hnull := fun u (hu : held w.libc.1 p = some (m, u)) =>
    contract.realloc_null p size m u w.libc hu hsize
  have hblock := fun u (hu : held w.libc.1 p = some (m, u)) =>
    contract.realloc_block p size m u w.libc hu hsize
  obtain ⟨u, hu⟩ := id hp
  refine ⟨⟨fun hq => ⟨.libc, (hnew hq).held⟩, fun hq x r' k hr hrp => ?_, fun hq =>
    ⟨⟨.libc, (hkept hq).held .libc p m (Option.some_ne_none _) hp⟩, fun i hi => ?_, hextents⟩⟩,
    fun hq => ⟨fun i hi => ?_, fun _ => ?_⟩⟩
  · have hne : r' ≠ p := fun h => by
      rw [hregion.2] at hrp
      cases hrp h
    have hnew := (hnew hq).held
    have hsep : process.Separate (produce { w with libc := r.2 } r.1 .libc) := by
      intro arena harena
      rw [hextents]
      exact sep arena harena
    refine (HeldBy.apart contract hcarries.sane hsep
      (hcarries.held x r' k (fun h => hne (Option.some.inj h)) hr) hnew ?_ (by decide)).symm
    -- libc places a block on none that it holds
    rintro rfl
    obtain rfl := (hr.region contract sane).unique (hnew.region contract hcarries.sane)
    obtain ⟨v, hv⟩ := hr
    rcases (hblock u hu hq).1 with h | h
    · exact hne h
    · rw [h] at hv
      cases hv
  · rw [World.bytes, hlibc]
    exact (hnull u hu hq).2 _ (hp.untouched contract sane (Option.some_ne_none _) hi)
  · rw [World.bytes, hlibc]
    exact (hblock u hu hq).2.2.1 i hi
  · by_cases hqp : r.1 = p
    · exact .inr ⟨hqp, hregion.1⟩
    · refine .inl (vacant_of_region contract hcarries.sane hregion ?_)
      obtain ⟨-, ⟨v, hv⟩, -, -⟩ := hblock u hu hq
      rintro k ⟨v', hv'⟩
      rw [hlibc, hv, update_of_ne (Ne.symm hqp), update_self] at hv'
      cases hv'

/-- What `routed_realloc` takes for the size of a block of the arena. -/
def arenaSize (process : Process (τ × Bytes)) (w : World (τ × Bytes)) (p : ℕ) : ℕ :=
  (process.state.arena.bind fun arena =>
    arena.allocationSize (process.real.lock w.libc).1 p w.extents).getD 0

/-- The locks that are taken for a block of the arena are granted, as far as it matters. -/
def Served (process : Process (τ × Bytes)) (w : World (τ × Bytes)) (p m size : ℕ) : Prop :=
  process.state.arenaOwns p = true →
    process.Passes { w with libc := (process.real.lock w.libc).2 } p m (process.arenaSize w p) size

section Routed

variable (contract : process.Contract held)
  (halign : ∀ arena, process.state.arena = some arena → 16 ≤ arena.alignment)
  (sane : process.Sane w) (sep : process.Separate w)

include contract halign sane sep

/-- A new block, a copy, and the old block is given back. -/
theorem wp_moveTo {oldSize : ℕ} (hmem : (p, x) ∈ w.returned) (hp : process.HeldBy held w x p m)
    (hearly : ¬process.platform.isEarlyPointer p = true)
    (hQ : ∀ q w', process.Resized held w p m size q w' →
      (process.Moved held w p m size q w' ↔ process.Passes w p m oldSize size) → Q q w') :
    wp process.handleBytes (process.platform.moveTo p oldSize size process.state) Q E w := by
  have hmalloc : wp process.handleBytes (Platform.routedMalloc size process.state)
      (process.Given held w size) (fun _ => False) w :=
    wp_routedMalloc contract halign sane sep fun _ _ h => h
  obtain ⟨q, w₁, hexec, given⟩ := wp_returns hmalloc
  rw [Platform.moveTo, wp_bind, wp, hexec]
  simp only [Passes, wp, hexec] at hQ
  show wp process.handleBytes (if q = 0 then _ else _) Q E w₁
  rw [wp_ite]
  split
  · rename_i hq
    subst hq
    exact hQ 0 w₁ (given.resized_null contract sane hp)
      (iff_of_true (fun h => absurd rfl h) fun h => absurd rfl h)
  rename_i hq
  rw [wp_bind]
  refine Rules.wp_event rfl ?_
  let w₂ := w₁.withBytes (w₁.bytes.scalarCopy q p (min oldSize size))
  have hcopy : process.Carries held none w₁ w₂ :=
    .of_eq given.carries.sane (given.carries.sane.inv.goes_of_eq rfl rfl) rfl rfl
  have hcarries : process.Carries held none w w₂ := given.carries.trans hcopy
  obtain ⟨hvacant, y, hy, hblock⟩ := given.block hq
  have hblock₂ := hcopy.held y q size (Option.some_ne_none _) hblock
  have hqp : some q ≠ some p := by
    intro h
    obtain rfl := Option.some.inj h
    exact hvacant x m hp
  rw [wp_bind]
  refine wp_routedFree contract hcarries.sane (hcarries.goes.mem hmem)
    (hcarries.held x p m (Option.some_ne_none _) hp) hearly fun w₃ hfree hgone hbytes => hQ q w₃
      ⟨fun _ => ⟨y, hfree.held y q size hqp hblock₂⟩,
        fun _ x r k hr _ => given.apart contract hq hr, fun h => absurd h hq⟩ ?_
  have hnew : ∀ i < size, w₃.bytes (q + i) = w₂.bytes (q + i) := fun i hi =>
    hbytes _ (hblock₂.untouched contract hcopy.sane hqp hi)
  rw [Moved, imp_iff_right hq, imp_iff_right hq, imp_iff_right hearly, hgone,
    or_iff_left fun h => hqp (congrArg some h.1)]
  refine and_congr_left fun _ => forall₂_congr fun i hi => ?_
  rw [hnew i (by omega)]
  -- the bytes up to the size that was read are copied
  by_cases hcopied : i < oldSize
  · exact iff_of_true (given.copy contract sane hq hp (by omega) hi) fun hle => by omega
  · rw [imp_iff_right (by omega), show w₂.bytes (q + i) = w₁.bytes (q + i) from
      Bytes.scalarCopy_outside (by omega)]

theorem wp_routedRealloc (hmem : (p, x) ∈ w.returned) (hp : process.HeldBy held w x p m)
    (hsize : 0 < size)
    (hQ : ∀ q w', process.Resized held w p m size q w' →
      (process.Moved held w p m size q w' ↔ process.Served w p m size) → Q q w') :
    wp process.handleBytes (process.platform.routedRealloc p size process.state) Q E w := by
  have hregion := hp.region contract sane
  -- a block that is not the arena's needs no lock
  have hother : x ≠ .arena → process.Served w p m size := fun hx howns =>
    absurd (hregion.unique (show process.Region p .arena from howns)) hx
  rw [Platform.routedRealloc, if_neg (hp.ne_zero contract), if_neg (Nat.pos_iff_ne_zero.mp hsize)]
  split
  · rename_i hearly
    obtain rfl : x = .early := hregion.unique hearly
    rw [wp_bind]
    refine wp_routedMalloc contract halign sane sep fun q w₁ given => ?_
    dsimp only
    rw [wp_ite]
    split
    · rename_i hq
      rw [wp_bind]
      obtain ⟨-, y, -, hblock⟩ := given.block hq
      -- up to the end of the buffer, so at least the block
      have hold : m ≤ earlySize - (p - process.platform.earlyBase) := by
        have hend := hp.2
        simp only [Platform.isEarlyPointer, Bool.and_eq_true, decide_eq_true_eq] at hearly
        omega
      have hcopy : process.Carries held none w₁ (w₁.withBytes _) := .of_eq given.carries.sane
        (given.carries.sane.inv.goes_of_eq rfl rfl) rfl rfl
      refine Rules.wp_event rfl (hQ q _
        ⟨fun _ => ⟨y, hcopy.held y q size (Option.some_ne_none _) hblock⟩,
          fun _ x r k hr _ => given.apart contract hq hr, fun h => absurd h hq⟩
        (iff_of_true (fun _ => ⟨fun i hi => ?_, fun h => absurd hearly h⟩) (hother (by decide))))
      exact given.copy contract sane hq hp (by omega) hi
    · rename_i hq
      rw [not_not] at hq
      subst hq
      exact hQ 0 w₁ (given.resized_null contract sane hp)
        (iff_of_true (fun h => absurd rfl h) (hother (by decide)))
  rename_i hearly
  have hdispatch := hregion.dispatch hearly
  split
  · rename_i arena hfilter
    rw [hfilter] at hdispatch
    obtain ⟨harena, rfl⟩ := hdispatch
    have howns : process.state.arenaOwns p = true := hregion
    obtain ⟨hheld, hbytes⟩ := contract.lock w.libc
    have hcarries : process.Carries held none w { w with libc := (process.real.lock w.libc).2 } :=
      .of_eq sane (sane.inv.goes_of_eq rfl rfl) rfl hheld
    rw [wp_bind]
    refine Rules.wp_event (sane.inv.handTo hmem) ?_
    refine wp_moveTo contract halign hcarries.sane sep hmem
      (hcarries.held _ _ m (Option.some_ne_none _) hp) hearly fun q w' hresized hmoved =>
        hQ q w' (hresized.before hheld hbytes) ?_
    have hread : World.bytes { w with libc := (process.real.lock w.libc).2 } = w.bytes := hbytes
    rw [Moved, hread] at hmoved
    rw [Moved, hmoved, Served, imp_iff_right howns, arenaSize, harena]
    rfl
  · rename_i hfilter
    rw [hfilter] at hdispatch
    subst hdispatch
    split
    · exact Rules.wp_event (sane.inv.handTo hmem)
        (hQ _ _ (contract.resized sane sep hp hsize).1
          (iff_of_true (contract.resized sane sep hp hsize).2 (hother (by decide))))
    · obtain ⟨u, hu⟩ := id hp
      obtain ⟨hanswer, hheld, hbytes⟩ := contract.mallocUsableSize p m u w.libc hu
      have hle := contract.usable _ p m u hu
      rw [wp_bind]
      refine Rules.wp_event (sane.inv.handTo hmem) ?_
      rw [hanswer]
      have hcarries : process.Carries held none w
          { w with libc := (process.real.mallocUsableSize p w.libc).2 } :=
        .of_eq sane (sane.inv.goes_of_eq rfl rfl) rfl hheld
      refine wp_moveTo contract halign hcarries.sane sep hmem
        (hcarries.held _ _ m (Option.some_ne_none _) hp) hearly fun q w' hresized hmoved =>
          hQ q w' (hresized.before hheld hbytes) ?_
      have hread : World.bytes { w with libc := (process.real.mallocUsableSize p w.libc).2 }
          = w.bytes := hbytes
      rw [Moved, hread] at hmoved
      rw [Moved, hmoved]
      refine iff_of_true (wp_routedMalloc contract halign hcarries.sane sep fun q w₁ _ _ =>
        ⟨fun i hi hu => by omega, fun howns => ?_⟩) (hother (by decide))
      rw [hregion.1] at howns
      cases howns

end Routed

end Process

/-! ### Runs -/

namespace ByteSession

variable {τ : Type} {process : Process (τ × Bytes)} {held : Blocks τ} {s : ByteSession τ}
  {libc : τ × Bytes} {p m size : ℕ}

/-- No two extents in use meet. -/
def ExtentsApart (s : ByteSession τ) : Prop :=
  ∀ i j, i ≠ j → (s.world.extents i).active = true → (s.world.extents j).active = true →
    (s.world.extents i).offset + (s.world.extents i).roundedLen ≤ (s.world.extents j).offset ∨
      (s.world.extents j).offset + (s.world.extents j).roundedLen ≤ (s.world.extents i).offset

theorem Sound.separate (hs : s.Sound process held) (hapart : s.ExtentsApart) :
    process.Separate s.world := fun arena harena =>
  ⟨fun i hi => (hs.sane.cut arena harena i hi).1, fun i hi => (hs.sane.cut arena harena i hi).2.1,
    hapart⟩

theorem run_of_script {s s' : ByteSession τ} {as : List ByteStep}
    (h : script process as s = some s') : ReflTransGen (Step process) s s' := by
  refine Lib.run_of_foldlM (fun s a s' h => ?_) h
  obtain ⟨hlegal, hstep⟩ := Lib.of_attempt h
  exact ⟨a, hlegal, hstep⟩

end ByteSession

/-! ### A libc that meets its contract -/

/-- A libc that never uses an address twice, and what the next locks will answer. -/
structure BumpLibc where
  next : ℕ
  blocks : ℕ → Option ℕ
  locks : List (Except ArenaError Unit)
  next_le : 2 ^ 50 ≤ next
  inside : ∀ p n, blocks p = some n → 2 ^ 50 ≤ p ∧ p + n < next
  apart : ∀ p n p' n', blocks p = some n → blocks p' = some n' → p ≠ p' →
    p + n ≤ p' ∨ p' + n' ≤ p

namespace BumpLibc

/-- Before the first call. -/
def start (locks : List (Except ArenaError Unit)) : BumpLibc where
  next := 2 ^ 50
  blocks _ := none
  locks := locks
  next_le := le_rfl
  inside := nofun
  apart := nofun

/-- Hand out the next block. -/
def give (s : BumpLibc) (n : ℕ) : BumpLibc where
  next := s.next + n + 1
  blocks := update s.blocks s.next (some n)
  locks := s.locks
  next_le := by
    have := s.next_le
    omega
  inside p n' h := by
    have hle := s.next_le
    by_cases hp : p = s.next
    · subst hp
      rw [update_self] at h
      obtain rfl := Option.some.inj h
      omega
    · rw [update_of_ne hp] at h
      have := s.inside p n' h
      omega
  apart p k p' k' h h' hne := by
    by_cases hp : p = s.next
    · subst hp
      rw [update_of_ne hne.symm] at h'
      have := s.inside p' k' h'
      omega
    · rw [update_of_ne hp] at h
      have hlt := s.inside p k h
      by_cases hp' : p' = s.next
      · omega
      · rw [update_of_ne hp'] at h'
        exact s.apart p k p' k' h h' hne

/-- Take a block back. -/
def take (s : BumpLibc) (p : ℕ) : BumpLibc where
  next := s.next
  blocks := update s.blocks p none
  locks := s.locks
  next_le := s.next_le
  inside q n h := by
    by_cases hq : q = p
    · rw [hq, update_self] at h
      cases h
    · rw [update_of_ne hq] at h
      exact s.inside q n h
  apart q k q' k' h h' hne := by
    by_cases hq : q = p
    · rw [hq, update_self] at h
      cases h
    by_cases hq' : q' = p
    · rw [hq', update_self] at h'
      cases h'
    rw [update_of_ne hq] at h
    rw [update_of_ne hq'] at h'
    exact s.apart q k q' k' h h' hne

/-- The blocks and their sizes. -/
def held : Blocks BumpLibc := fun s p => (s.blocks p).map fun n => (n, n)

/-- Its functions. -/
def real : RealAlloc (BumpLibc × Bytes) where
  malloc n s := (s.1.next, s.1.give n, s.2)
  calloc count n s := (s.1.next, s.1.give (count * n), s.2)
  realloc p n s :=
    match s.1.blocks p with
    | none => (0, s)
    | some m => (s.1.next, (s.1.give n).take p, s.2.scalarCopy s.1.next p (min m n))
  free p s := (s.1.take p, s.2)
  memalign _ n s := (s.1.next, s.1.give n, s.2)
  mallocUsableSize p s := ((s.1.blocks p).getD 0, s)
  lock s :=
    match s.1.locks with
    | [] => (.ok (), s)
    | answer :: locks => (answer, { s.1 with locks := locks }, s.2)

/-- It serves from above everything else. -/
theorem le_of_returned {p : ℕ} {s s' : BumpLibc × Bytes} (hp : p ≠ 0)
    (h : (∃ size, real.malloc size s = (p, s')) ∨
      (∃ count size, real.calloc count size s = (p, s')) ∨
      (∃ q size, real.realloc q size s = (p, s')) ∨
      (∃ alignment size, real.memalign alignment size s = (p, s'))) : 2 ^ 50 ≤ p := by
  have hnext : s.1.next = p → 2 ^ 50 ≤ p := fun h => h ▸ s.1.next_le
  obtain ⟨_, h⟩ | ⟨_, _, h⟩ | ⟨q, n, h⟩ | ⟨_, _, h⟩ := h
  · exact hnext (Prod.mk.inj h).1
  · exact hnext (Prod.mk.inj h).1
  · cases hq : s.1.blocks q with
    | none =>
      simp only [real, hq] at h
      exact absurd (Prod.mk.inj h).1.symm hp
    | some m =>
      simp only [real, hq] at h
      exact hnext (Prod.mk.inj h).1
  · exact hnext (Prod.mk.inj h).1

/-- The process of the example before, over this libc. -/
def process : Process (BumpLibc × Bytes) where
  platform := exampleProcess.platform
  state := exampleProcess.state
  real := real
  libc_apart _ _ _ hp h := exampleProcess_region (le_of_returned hp h)
  early_apart := exampleProcess.early_apart

theorem not_foreign {a : ℕ} (ha : 2 ^ 50 ≤ a) : ¬process.Foreign a := by
  rw [Process.not_foreign_iff]
  exact exampleProcess_region ha

theorem held_eq_some {s : BumpLibc} {p m u : ℕ} :
    held s p = some (m, u) ↔ s.blocks p = some m ∧ m = u := by
  simp only [held, Option.map_eq_some_iff, Prod.mk.injEq]
  constructor
  · rintro ⟨n, hn, rfl, rfl⟩
    exact ⟨hn, rfl⟩
  · rintro ⟨hm, rfl⟩
    exact ⟨_, hm, rfl, rfl⟩

theorem held_update (f : ℕ → Option ℕ) (p : ℕ) (b : Option ℕ) :
    (fun q => (update f p b q).map fun n => (n, n))
      = update (fun q => (f q).map fun n => (n, n)) p (b.map fun n => (n, n)) := by
  funext q
  by_cases hq : q = p
  · rw [hq, update_self, update_self]
  · rw [update_of_ne hq, update_of_ne hq]

theorem held_give (s : BumpLibc) (n : ℕ) : held (s.give n) = update (held s) s.next (some (n, n)) :=
  held_update ..

theorem held_take (s : BumpLibc) (p : ℕ) : held (s.take p) = update (held s) p none :=
  held_update ..

theorem held_next (s : BumpLibc) : s.blocks s.next = none := by
  by_contra h
  obtain ⟨n, hn⟩ := Option.ne_none_iff_exists'.mp h
  have := s.inside _ n hn
  omega

theorem hands (s : BumpLibc × Bytes) (n : ℕ) :
    process.Hands held n s (s.1.next, s.1.give n, s.2) where
  null h := absurd (show s.1.next = 0 from h) (by have := s.1.next_le; omega)
  block _ := ⟨by rw [held, held_next]; rfl, n, held_give ..⟩
  bytes _ _ := rfl

theorem contract : process.Contract held where
  usable x p m u h := (held_eq_some.mp h).2.le
  own x p m u h := by
    obtain ⟨hle, -⟩ := x.inside p m (held_eq_some.mp h).1
    exact ⟨by omega, not_foreign hle, fun a ha _ => not_foreign (hle.trans ha)⟩
  apart x p m u p' m' u' h h' hne := by
    obtain ⟨hp, rfl⟩ := held_eq_some.mp h
    obtain ⟨hp', rfl⟩ := held_eq_some.mp h'
    exact x.apart p m p' m' hp hp' hne
  malloc n s := hands s n
  calloc count n s := hands s (count * n)
  memalign _ n s := hands s n
  realloc_null p n m u s h _ hnull := by
    have hp := (held_eq_some.mp h).1
    have hle := s.1.next_le
    simp only [process, real, hp] at hnull
    omega
  realloc_block p n m u s h _ _ := by
    have hp := (held_eq_some.mp h).1
    have hlt := s.1.inside p m hp
    have hne : p ≠ s.1.next := by omega
    simp only [process, real, hp]
    refine ⟨.inr ?_, ⟨n, ?_⟩, fun i hi => ?_, fun a ha => ?_⟩
    · rw [held, held_next]
      rfl
    · rw [held_take, held_give, update_comm hne]
    · exact Bytes.scalarCopy_inside (by omega) (by omega)
    · refine Bytes.scalarCopy_outside ?_
      rcases ha with ha | ⟨q, m', u', -, hq, hqa, ha⟩
      · by_contra hin
        exact not_foreign (by have := s.1.next_le; omega) ha
      · obtain ⟨hb, rfl⟩ := held_eq_some.mp hq
        have := s.1.inside q m' hb
        omega
  free p m u s h := ⟨held_take .., fun _ _ => rfl⟩
  mallocUsableSize p m u s h := by
    obtain ⟨hp, rfl⟩ := held_eq_some.mp h
    exact ⟨by simp only [process, real, hp, Option.getD_some], rfl, rfl⟩
  lock s := by
    simp only [process, real]
    split <;> exact ⟨rfl, rfl⟩

end BumpLibc

namespace ByteSession

open BumpLibc (process)

end ByteSession

end Cxlalloc.Preload
