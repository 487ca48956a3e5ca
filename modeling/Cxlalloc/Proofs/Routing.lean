/-
Rules for the programs of the preload library.

Every interposed function is made of the same dozen events, and what is shown of one
function is mostly shown of all: a pointer that is passed in goes back to the allocator it
came from, and what is returned was just handed out by the allocator the policy names.
`Rules` says what has to be known of the single events for that.  The rules for the
programs follow from it, whatever else the events do.

A part of a call goes from one state to another (`Goes`).  Meanwhile at most one pointer is
given back, the one that was passed in; `Goes none` gives back none.
-/
import Cxlalloc.Preload.Interpose
import Cxlalloc.Proofs.DaxArena

namespace Cxlalloc.Preload.Process

open Lib.Prog

variable {σ : Type} {process : Process σ}

/-- Where the pointers of an allocator are. -/
def Region (process : Process σ) (p : ℕ) : Producer → Prop
  | .early => process.platform.isEarlyPointer p = true
  | .libc => process.state.arenaOwns p = false ∧ process.platform.isEarlyPointer p = false
  | .arena => process.state.arenaOwns p = true

/-- The regions of the allocators do not meet. -/
theorem Region.unique {p : ℕ} {x y : Producer} (hx : process.Region p x)
    (hy : process.Region p y) : x = y := by
  have hearly := process.early_apart p
  cases x <;> cases y <;> simp_all [Region]

/-- A pointer in the arena is the arena's, any other that is not early is libc's. -/
theorem Region.dispatch {p : ℕ} {x : Producer} (hx : process.Region p x)
    (hearly : ¬process.platform.isEarlyPointer p = true) :
    match process.state.arena.filter fun arena => arena.owns p with
    | some arena => process.state.arena = some arena ∧ x = .arena
    | none => x = .libc := by
  have howns : process.state.arenaOwns p
      = (process.state.arena.filter fun arena => arena.owns p).isSome := by
    rw [State.arenaOwns]
    cases process.state.arena with
    | none => rfl
    | some arena => by_cases h : arena.owns p = true <;> simp [Option.filter, h]
  split
  · rename_i arena hfilter
    have harena : process.Region p .arena := by
      rw [Region, howns, hfilter, Option.isSome_some]
    exact ⟨(Option.filter_eq_some_iff.mp hfilter).1, hx.unique harena⟩
  · rename_i hfilter
    have hlibc : process.Region p .libc := by
      rw [Region, howns, hfilter]
      exact ⟨rfl, by simpa using hearly⟩
    exact hx.unique hlibc

/-! ### Events -/

/-- What is known of the events of a process under a handler.  No event fails. -/
structure Rules (process : Process σ) (h : Handler Ev (World σ) Fault) where
  /-- The invariant between events. -/
  Ok : World σ → Prop
  /-- A pointer that may be passed in, and the allocator it came from. -/
  Owns : World σ → Producer → ℕ → Prop
  Goes : Option ℕ → World σ → World σ → Prop
  /-- Between two states, an allocator handed out a block of `n` bytes. -/
  New : World σ → Producer → ℕ → ℕ → World σ → Prop
  /-- No allocator holds a block there. -/
  Fresh : World σ → ℕ → Prop
  refl : ∀ {w}, Ok w → Goes none w w
  trans : ∀ {f w w' w''}, Goes none w w' → Goes f w' w'' → Goes f w w''
  trans_none : ∀ {f w w' w''}, Goes f w w' → Goes none w' w'' → Goes f w w''
  weaken : ∀ {f w w'}, Goes none w w' → Goes f w w'
  ok : ∀ {f w w'}, Goes f w w' → Ok w'
  owns : ∀ {w w' x p}, Goes none w w' → Owns w x p → Owns w' x p
  region : ∀ {w x p}, Ok w → Owns w x p → process.Region p x
  new_trans : ∀ {w w' w'' x n p}, New w x n p w' → Goes none w' w'' → New w x n p w''
  trans_new : ∀ {w w' w'' x n p}, Goes none w w' → New w' x n p w'' → New w x n p w''
  /-- What is new outlives what was there before. -/
  survives : ∀ {w w' w'' x y n p q}, Fresh w q → New w x n q w' → Owns w y p →
    Goes (some p) w' w'' → New w x n q w''
  /-- The early buffer rounds sizes up. -/
  early_le : ∀ {w w' m n p}, New w .early n p w' → m ≤ n → New w .early m p w'
  state : ∀ w, h _ .state w = .ok (if w.initialized then some process.state else none, w)
  setErrno : ∀ {w} e, Ok w → ∃ w', h _ (.setErrno e) w = .ok ((), w') ∧ Goes none w w'
  realMalloc : ∀ {w} n, Ok w → ∃ p w', h _ (.realMalloc n) w = .ok (p, w') ∧ Goes none w w' ∧
    (p ≠ 0 → New w .libc n p w') ∧ (p ≠ 0 → Fresh w p)
  realCalloc : ∀ {w} count n, Ok w → ∃ p w', h _ (.realCalloc count n) w = .ok (p, w') ∧
    Goes none w w' ∧ (p ≠ 0 → New w .libc (count * n) p w')
  realMemalign : ∀ {w} a n, Ok w → ∃ p w', h _ (.realMemalign a n) w = .ok (p, w') ∧
    Goes none w w' ∧ (p ≠ 0 → New w .libc n p w')
  realRealloc : ∀ {w} p n, Ok w → Owns w .libc p → 0 < n →
    ∃ q w', h _ (.realRealloc p n) w = .ok (q, w') ∧ Goes (some p) w w' ∧
      (q = 0 → Goes none w w') ∧ (q ≠ 0 → New w .libc n q w')
  realFree : ∀ {w} p, Ok w → Owns w .libc p →
    ∃ w', h _ (.realFree p) w = .ok ((), w') ∧ Goes (some p) w w'
  realMallocUsableSize : ∀ {w} p, Ok w → Owns w .libc p →
    ∃ n w', h _ (.realMallocUsableSize p) w = .ok (n, w') ∧ Goes none w w'
  arenaAllocate : ∀ {w} arena n a, Ok w → process.state.arena = some arena →
    ∃ r w', h _ (.arenaAllocate arena n a) w = .ok (r, w') ∧ Goes none w w' ∧
      ∀ p, r = .ok p → New w .arena n p w' ∧ Fresh w p
  arenaDeallocate : ∀ {w} arena p, Ok w → process.state.arena = some arena → Owns w .arena p →
    ∃ r w', h _ (.arenaDeallocate arena p) w = .ok (r, w') ∧ Goes (some p) w w'
  arenaAllocationSize : ∀ {w} arena p, Ok w → Owns w .arena p →
    ∃ r w', h _ (.arenaAllocationSize arena p) w = .ok (r, w') ∧ Goes none w w'
  earlyReserve : ∀ {w} n, Ok w → 0 < n →
    ∃ r w', h _ (.earlyReserve n) w = .ok (r, w') ∧ Goes none w w' ∧
      ∀ offset, r = some offset → New w .early n (process.platform.earlyBase + offset) w'
  scalarFill : ∀ {w} p v n, Ok w → ∃ w', h _ (.scalarFill p v n) w = .ok ((), w') ∧ Goes none w w'
  scalarCopy : ∀ {w} p q n, Ok w → ∃ w', h _ (.scalarCopy p q n) w = .ok ((), w') ∧ Goes none w w'

namespace Rules

variable {h : Handler Ev (World σ) Fault} (R : process.Rules h) {w w' w'' : World σ} {p size : ℕ}
  {E : Fault → Prop}

theorem wp_event {β : Type} {ev : Ev β} {b : β} {Q : β → World σ → Prop}
    (hev : h β ev w = .ok (b, w')) (hQ : Q b w') : wp h (lift ev) Q E w := by
  rw [wp_lift, hev]
  exact hQ

include R in
theorem wp_state {Q : Option State → World σ → Prop}
    (hQ : Q (if w.initialized then some process.state else none) w) : wp h (lift .state) Q E w :=
  wp_event (R.state w) hQ

theorem wp_setErrno {Q : Unit → World σ → Prop} {e : Errno} (ok : R.Ok w)
    (hQ : ∀ w', R.Goes none w w' → Q () w') : wp h (lift (.setErrno e)) Q E w := by
  obtain ⟨w', hev, hgoes⟩ := R.setErrno e ok
  exact wp_event hev (hQ w' hgoes)

variable {Q : ℕ → World σ → Prop}

theorem wp_fail {e : Errno} (ok : R.Ok w)
    (hQ : ∀ w', R.Goes none w w' → Q 0 w') : wp h (Platform.fail e) Q E w := by
  rw [Platform.fail, wp_bind]
  exact R.wp_setErrno ok fun w' hw' => hQ w' hw'

/-! ### The programs -/

theorem wp_earlyMalloc (ok : R.Ok w)
    (hQ : ∀ p w', R.Goes none w w' → (p ≠ 0 → R.New w .early size p w') → Q p w') :
    wp h (process.platform.earlyMalloc size) Q E w := by
  rw [Platform.earlyMalloc]
  split
  · exact hQ 0 w (R.refl ok) fun h => absurd rfl h
  rename_i rounded hrounded
  obtain ⟨v, hv, rfl⟩ := Option.map_eq_some_iff.mp hrounded
  obtain ⟨rfl, hlt⟩ := checkedAdd_eq_some.mp hv
  have hmask : maskDown (max size 16 + (16 - 1)) 16 = (max size 16 + 15) / 16 * 16 :=
    maskDown_eq hlt (by decide) (by decide)
  rw [wp_bind, hmask]
  obtain ⟨r, w', hev, hgoes, hnew⟩ :=
    R.earlyReserve ((max size 16 + 15) / 16 * 16) ok (by omega)
  refine wp_event hev ?_
  cases r with
  | none => exact hQ 0 w' hgoes fun h => absurd rfl h
  | some offset => exact hQ _ w' hgoes fun _ => R.early_le (hnew offset rfl) (by omega)

/-- The result of a request was handed out by the allocator the policy names. -/
def Placed (w : World σ) (size p : ℕ) (w' : World σ) : Prop :=
  p ≠ 0 → R.New w (if process.state.policy.minSize ≤ size then .arena else .libc) size p w'

variable {R}

theorem placed_null : R.Placed w size 0 w' := fun h => absurd rfl h

theorem Placed.trans (h : R.Placed w size p w') (hgoes : R.Goes none w' w'') :
    R.Placed w size p w'' := fun hp => R.new_trans (h hp) hgoes

theorem placed_libc (hsize : (!process.state.policy.usesCxl size) = true)
    (h : p ≠ 0 → R.New w .libc size p w') : R.Placed w size p w' := by
  intro hp
  rw [if_neg (by simpa [PlacementPolicy.usesCxl] using hsize)]
  exact h hp

theorem placed_arena (hsize : ¬(!process.state.policy.usesCxl size) = true)
    (h : R.New w .arena size p w') : R.Placed w size p w' := by
  intro _
  rw [if_pos (by simpa [PlacementPolicy.usesCxl] using hsize)]
  exact h

variable (R)

theorem wp_routedMalloc (ok : R.Ok w)
    (hQ : ∀ p w', R.Goes none w w' → R.Placed w size p w' → (p ≠ 0 → R.Fresh w p) → Q p w') :
    wp h (Platform.routedMalloc size process.state) Q E w := by
  have hnull : ∀ {w'}, R.Goes none w w' → Q 0 w' :=
    fun hgoes => hQ 0 _ hgoes placed_null fun h => absurd rfl h
  rw [Platform.routedMalloc]
  split
  · rename_i hsize
    obtain ⟨p, w', hev, hgoes, hp, hfresh⟩ := R.realMalloc size ok
    exact wp_event hev (hQ p w' hgoes (placed_libc hsize hp) hfresh)
  rename_i hsize
  split
  · exact R.wp_fail ok fun w' hgoes => hnull hgoes
  rename_i arena harena
  obtain ⟨r, w', hev, hgoes, hnew⟩ := R.arenaAllocate arena size 16 ok harena
  rw [wp_bind]
  refine wp_event hev ?_
  cases r with
  | error e => exact R.wp_fail (R.ok hgoes) fun w'' hgoes' => hnull (R.trans hgoes hgoes')
  | ok p =>
    obtain ⟨hp, hfresh⟩ := hnew p rfl
    exact hQ p w' hgoes (placed_arena hsize hp) fun _ => hfresh

theorem wp_routedAlignedAlloc {alignment : ℕ} (ok : R.Ok w)
    (hQ : ∀ p w', R.Goes none w w' → R.Placed w size p w' → Q p w') :
    wp h (Platform.routedAlignedAlloc alignment size process.state) Q E w := by
  have hfail : ∀ {e w'}, R.Goes none w w' → wp h (Platform.fail e) Q E w' :=
    fun hgoes => R.wp_fail (R.ok hgoes) fun w'' hgoes' => hQ 0 w'' (R.trans hgoes hgoes') placed_null
  rw [Platform.routedAlignedAlloc]
  split
  · exact hfail (R.refl ok)
  split
  · rename_i hsize
    obtain ⟨p, w', hev, hgoes, hp⟩ := R.realMemalign alignment size ok
    exact wp_event hev (hQ p w' hgoes (placed_libc hsize hp))
  rename_i hsize
  split
  · exact hfail (R.refl ok)
  rename_i arena harena
  obtain ⟨r, w', hev, hgoes, hnew⟩ := R.arenaAllocate arena size alignment ok harena
  rw [wp_bind]
  refine wp_event hev ?_
  rcases r with e | p
  · cases e <;> exact hfail hgoes
  · exact hQ p w' hgoes (placed_arena hsize (hnew p rfl).1)

theorem wp_routedFree {Q : Unit → World σ → Prop} (ok : R.Ok w)
    (hp : p = 0 ∨ ∃ x, R.Owns w x p) (hQ : ∀ w', R.Goes (some p) w w' → Q () w') :
    wp h (process.platform.routedFree p process.state) Q E w := by
  rw [Platform.routedFree]
  split
  · exact hQ w (R.weaken (R.refl ok))
  rename_i hskip
  rw [not_or] at hskip
  obtain ⟨x, hx⟩ := hp.resolve_left hskip.1
  have hdispatch := (R.region ok hx).dispatch hskip.2
  split
  · rename_i arena hfilter
    rw [hfilter] at hdispatch
    obtain ⟨harena, rfl⟩ := hdispatch
    obtain ⟨r, w', hev, hgoes⟩ := R.arenaDeallocate arena p ok harena hx
    rw [wp_bind]
    refine wp_event hev ?_
    cases r with
    | ok u => exact hQ w' hgoes
    | error e =>
      exact R.wp_setErrno (R.ok hgoes) fun w'' hgoes' => hQ w'' (R.trans_none hgoes hgoes')
  · rename_i hfilter
    rw [hfilter] at hdispatch
    subst hdispatch
    obtain ⟨w', hev, hgoes⟩ := R.realFree p ok hx
    exact wp_event hev (hQ w' hgoes)

theorem wp_scalarFill {Q : Unit → World σ → Prop} {v n : ℕ} (ok : R.Ok w)
    (hQ : ∀ w', R.Goes none w w' → Q () w') : wp h (lift (.scalarFill p v n)) Q E w := by
  obtain ⟨w', hev, hgoes⟩ := R.scalarFill p v n ok
  exact wp_event hev (hQ w' hgoes)

theorem wp_scalarCopy {Q : Unit → World σ → Prop} {q n : ℕ} (ok : R.Ok w)
    (hQ : ∀ w', R.Goes none w w' → Q () w') : wp h (lift (.scalarCopy p q n)) Q E w := by
  obtain ⟨w', hev, hgoes⟩ := R.scalarCopy p q n ok
  exact wp_event hev (hQ w' hgoes)

theorem wp_routedCalloc {count : ℕ} (ok : R.Ok w)
    (hnull : ∀ w', checkedMul count size = none → R.Goes none w w' → Q 0 w')
    (hQ : ∀ total p w', checkedMul count size = some total → R.Goes none w w' →
      R.Placed w total p w' → Q p w') :
    wp h (Platform.routedCalloc count size process.state) Q E w := by
  rw [Platform.routedCalloc]
  split
  · rename_i hnone
    exact R.wp_fail ok fun w' hgoes => hnull w' hnone hgoes
  rename_i total htotal
  have hmul : count * size = total := by
    rw [checkedMul] at htotal
    split at htotal
    · exact Option.some.inj htotal
    · cases htotal
  split
  · rename_i hsize
    obtain ⟨p, w', hev, hgoes, hp⟩ := R.realCalloc count size ok
    exact wp_event hev (hQ total p w' htotal hgoes (placed_libc hsize (hmul ▸ hp)))
  rw [wp_bind]
  refine R.wp_routedMalloc ok fun p w' hgoes hp _ => ?_
  dsimp only
  rw [wp_ite]
  split
  · rw [wp_bind]
    exact R.wp_scalarFill (R.ok hgoes) fun w'' hgoes' =>
      hQ total p w'' htotal (R.trans hgoes hgoes') (hp.trans hgoes')
  · exact hQ total p w' htotal hgoes hp

/-- What a reallocation does to the pointer that was passed in: it is given back, unless the
answer is null. -/
structure Moved (w : World σ) (p size q : ℕ) (w' : World σ) : Prop where
  goes : R.Goes (some p) w w'
  kept : q = 0 → size ≠ 0 → R.Goes none w w'
  placed : R.Placed w size q w'

variable {R} in
theorem Moved.of_goes {q : ℕ} (hgoes : R.Goes none w w') (hq : R.Placed w size q w') :
    R.Moved w p size q w' :=
  ⟨R.weaken hgoes, fun _ _ => hgoes, hq⟩

theorem wp_moveTo {oldSize : ℕ} {x : Producer} (ok : R.Ok w)
    (hx : R.Owns w x p) (hQ : ∀ q w', R.Moved w p size q w' → Q q w') :
    wp h (process.platform.moveTo p oldSize size process.state) Q E w := by
  rw [Platform.moveTo, wp_bind]
  refine R.wp_routedMalloc ok fun q w' hgoes hq hfresh => ?_
  rw [wp_ite]
  split
  · exact hQ 0 w' (.of_goes hgoes placed_null)
  rename_i hne
  rw [wp_bind]
  refine R.wp_scalarCopy (R.ok hgoes) fun w₁ hgoes₁ => ?_
  have hboth := R.trans hgoes hgoes₁
  rw [wp_bind]
  exact R.wp_routedFree (R.ok hboth) (.inr ⟨x, R.owns hboth hx⟩) fun w₂ hgoes₂ =>
    hQ q w₂ ⟨R.trans hboth hgoes₂, fun h => absurd h hne,
      fun _ => R.survives (hfresh hne) (R.new_trans (hq hne) hgoes₁) hx hgoes₂⟩

theorem wp_routedRealloc (ok : R.Ok w)
    (hp : p = 0 ∨ ∃ x, R.Owns w x p) (hQ : ∀ q w', R.Moved w p size q w' → Q q w') :
    wp h (process.platform.routedRealloc p size process.state) Q E w := by
  rw [Platform.routedRealloc]
  split
  · exact R.wp_routedMalloc ok fun q w' hgoes hq _ => hQ q w' (.of_goes hgoes hq)
  rename_i hnull
  obtain ⟨x, hx⟩ := hp.resolve_left hnull
  split
  · rename_i hzero
    rw [wp_bind]
    exact R.wp_routedFree ok hp fun w' hgoes =>
      hQ 0 w' ⟨hgoes, fun _ hne => absurd hzero hne, placed_null⟩
  rename_i hzero
  split
  · rw [wp_bind]
    refine R.wp_routedMalloc ok fun q w' hgoes hq _ => ?_
    dsimp only
    rw [wp_ite]
    split
    · rw [wp_bind]
      exact R.wp_scalarCopy (R.ok hgoes) fun w'' hgoes' =>
        hQ q w'' (.of_goes (R.trans hgoes hgoes') (hq.trans hgoes'))
    · exact hQ q w' (.of_goes hgoes hq)
  rename_i hearly
  have hdispatch := (R.region ok hx).dispatch hearly
  -- what was looked up before does not count
  have hlater : ∀ {w' w'' q}, R.Goes none w w' → R.Moved w' p size q w'' → R.Moved w p size q w'' :=
    fun hgoes hm => ⟨R.trans hgoes hm.goes, fun h hne => R.trans hgoes (hm.kept h hne),
      fun hne => R.trans_new hgoes (hm.placed hne)⟩
  split
  · rename_i arena hfilter
    rw [hfilter] at hdispatch
    obtain ⟨-, rfl⟩ := hdispatch
    obtain ⟨r, w', hev, hgoes⟩ := R.arenaAllocationSize arena p ok hx
    rw [wp_bind]
    refine wp_event hev ?_
    exact R.wp_moveTo (R.ok hgoes) (R.owns hgoes hx) fun q w'' hm => hQ q w'' (hlater hgoes hm)
  · rename_i hfilter
    rw [hfilter] at hdispatch
    subst hdispatch
    split
    · rename_i hsize
      obtain ⟨q, w', hev, hgoes, hkept, hq⟩ := R.realRealloc p size ok hx (Nat.pos_of_ne_zero hzero)
      exact wp_event hev (hQ q w' ⟨hgoes, fun h _ => hkept h, placed_libc hsize hq⟩)
    · obtain ⟨n, w', hev, hgoes⟩ := R.realMallocUsableSize p ok hx
      rw [wp_bind]
      refine wp_event hev ?_
      exact R.wp_moveTo (R.ok hgoes) (R.owns hgoes hx) fun q w'' hm => hQ q w'' (hlater hgoes hm)

theorem wp_memalign {alignment : ℕ} (ok : R.Ok w) (hinit : w.initialized = true)
    (hQ : ∀ p w', R.Goes none w w' → R.Placed w size p w' → Q p w') :
    wp h (process.platform.memalign alignment size) Q E w := by
  rw [Platform.memalign, wp_bind]
  refine R.wp_state ?_
  rw [if_pos hinit]
  exact R.wp_routedAlignedAlloc ok hQ

theorem wp_valloc (ok : R.Ok w) (hinit : w.initialized = true)
    (hQ : ∀ p w', R.Goes none w w' → R.Placed w size p w' → Q p w') :
    wp h (process.platform.valloc size) Q E w := by
  rw [Platform.valloc, wp_bind]
  refine R.wp_state ?_
  rw [if_pos hinit]
  exact R.wp_routedAlignedAlloc ok hQ

theorem wp_mallocUsableSize (ok : R.Ok w)
    (hp : p = 0 ∨ ∃ x, R.Owns w x p) (hQ : ∀ n w', R.Goes none w w' → Q n w') :
    wp h (process.platform.mallocUsableSize p) Q E w := by
  rw [Platform.mallocUsableSize]
  split
  · exact hQ 0 w (R.refl ok)
  rename_i hskip
  rw [not_or] at hskip
  obtain ⟨x, hx⟩ := hp.resolve_left hskip.1
  have hdispatch := (R.region ok hx).dispatch hskip.2
  rw [wp_bind]
  refine R.wp_state ?_
  split
  · exact hQ 0 w (R.refl ok)
  rename_i state hstate
  split at hstate
  · obtain rfl := Option.some.inj hstate
    split
    · rename_i arena hfilter
      rw [hfilter] at hdispatch
      obtain ⟨-, rfl⟩ := hdispatch
      obtain ⟨r, w', hev, hgoes⟩ := R.arenaAllocationSize arena p ok hx
      rw [wp_bind]
      exact wp_event hev (hQ _ w' hgoes)
    · rename_i hfilter
      rw [hfilter] at hdispatch
      subst hdispatch
      obtain ⟨n, w', hev, hgoes⟩ := R.realMallocUsableSize p ok hx
      exact wp_event hev (hQ n w' hgoes)
  · cases hstate

/-! ### Calls -/

/-- What a call does to the pointer that was passed in, and what it answers. -/
structure Answers (api : Api) (w : World σ) (p : ℕ) (w' : World σ) : Prop where
  goes : R.Goes (some api.argument) w w'
  kept : api.consumes p = false → R.Goes none w w'
  null : api.effectiveSize process.platform = none → p = 0

variable {api : Api}

variable {R} in
theorem Answers.of_goes (hgoes : R.Goes none w w')
    (hnull : api.effectiveSize process.platform = none → p = 0) : R.Answers api w p w' :=
  ⟨R.weaken hgoes, fun _ => hgoes, hnull⟩

variable {R} in
theorem Moved.answers {q : ℕ} (hm : R.Moved w p size q w') :
    R.Answers (.realloc p size) w q w' := by
  refine ⟨hm.goes, fun hkept => ?_, fun h => nomatch h⟩
  simp only [Api.consumes, decide_eq_false_iff_not, not_or, not_not] at hkept
  exact hm.kept hkept.2 hkept.1

/-- What a call answers once the library is initialized. -/
structure Routed (api : Api) (w : World σ) (p : ℕ) (w' : World σ) : Prop
    extends R.Answers api w p w' where
  placed : ∀ size, api.effectiveSize process.platform = some size → R.Placed w size p w'

variable {R} in
theorem Routed.of_size (hsize : api.effectiveSize process.platform = some size)
    (hgoes : R.Goes none w w') (hp : R.Placed w size p w') : R.Routed api w p w' := by
  refine ⟨.of_goes hgoes fun hnone => ?_, fun size' hsize' => ?_⟩
  · rw [hsize] at hnone
    cases hnone
  · obtain rfl := Option.some.inj (hsize.symm.trans hsize')
    exact hp

theorem wp_run (ok : R.Ok w) (hinit : w.initialized = true)
    (harg : api.argument = 0 ∨ ∃ x, R.Owns w x api.argument) :
    wp h (api.run process.platform) (R.Routed api w) E w := by
  cases api with
  | malloc size =>
    rw [Api.run, Platform.malloc, wp_bind]
    refine R.wp_state ?_
    rw [if_pos hinit]
    exact R.wp_routedMalloc ok fun p w' hgoes hp _ => .of_size rfl hgoes hp
  | calloc count size =>
    rw [Api.run, Platform.calloc, wp_bind]
    refine R.wp_state ?_
    rw [if_pos hinit]
    refine R.wp_routedCalloc ok ?_ ?_
    · exact fun w' _ hgoes => ⟨.of_goes hgoes fun _ => rfl, fun _ _ => placed_null⟩
    · exact fun total p w' htotal hgoes hp => .of_size htotal hgoes hp
  | realloc p size =>
    rw [Api.run, Platform.realloc, wp_bind]
    refine R.wp_state ?_
    rw [if_pos hinit]
    refine R.wp_routedRealloc ok harg fun q w' hm => ⟨hm.answers, fun size' hsize' => ?_⟩
    obtain rfl := Option.some.inj hsize'
    exact hm.placed
  | memalign alignment size =>
    exact R.wp_memalign ok hinit fun p w' hgoes hp => .of_size rfl hgoes hp
  | alignedAlloc alignment size =>
    rw [Api.run, Platform.alignedAlloc]
    split
    · exact R.wp_fail ok fun w' hgoes => .of_size rfl hgoes placed_null
    · exact R.wp_memalign ok hinit fun p w' hgoes hp => .of_size rfl hgoes hp
  | posixMemalign output alignment size =>
    rw [Api.run, wp_bind, Platform.posixMemalign]
    split
    · exact .of_size rfl (R.refl ok) placed_null
    rw [wp_bind]
    refine R.wp_memalign ok hinit fun p w' hgoes hp => ?_
    rw [wp_ite]
    split
    · exact .of_size rfl hgoes placed_null
    · exact .of_size rfl hgoes hp
  | valloc size =>
    exact R.wp_valloc ok hinit fun p w' hgoes hp => .of_size rfl hgoes hp
  | pvalloc size =>
    rw [Api.run, Platform.pvalloc]
    split
    · exact R.wp_fail ok fun w' hgoes => ⟨.of_goes hgoes fun _ => rfl, fun _ _ => placed_null⟩
    · rename_i rounded hrounded
      exact R.wp_valloc ok hinit fun p w' hgoes hp => .of_size hrounded hgoes hp
  | free p =>
    rw [Api.run, wp_bind, Platform.free, wp_bind]
    refine R.wp_state ?_
    rw [if_pos hinit]
    exact R.wp_routedFree ok harg fun w' hgoes =>
      ⟨⟨hgoes, fun h => (nomatch h), fun _ => rfl⟩, fun _ h => (nomatch h)⟩
  | mallocUsableSize p =>
    rw [Api.run, wp_bind]
    exact R.wp_mallocUsableSize ok harg fun n w' hgoes =>
      ⟨.of_goes hgoes fun _ => rfl, fun _ h => (nomatch h)⟩

/-- What a call answers until then, from the early buffer. -/
structure Early (api : Api) (w : World σ) (p : ℕ) (w' : World σ) : Prop
    extends R.Answers api w p w' where
  placed : p ≠ 0 → ∀ size, api.effectiveSize process.platform = some size → R.New w .early size p w'

variable {R} in
theorem Early.of_size (hsize : api.effectiveSize process.platform = some size)
    (hgoes : R.Goes none w w') (hp : p ≠ 0 → R.New w .early size p w') : R.Early api w p w' := by
  refine ⟨.of_goes hgoes fun hnone => ?_, fun hne size' hsize' => ?_⟩
  · rw [hsize] at hnone
    cases hnone
  · obtain rfl := Option.some.inj (hsize.symm.trans hsize')
    exact hp hne

variable {R} in
theorem Early.of_null (hgoes : R.Goes none w w') : R.Early api w 0 w' :=
  ⟨.of_goes hgoes fun _ => rfl, fun h => absurd rfl h⟩

theorem wp_run_early (ok : R.Ok w) (hinit : w.initialized = false)
    (harg : api.argument = 0 ∨ ∃ x, R.Owns w x api.argument) :
    wp h (api.run process.platform) (R.Early api w) E w := by
  have hstate : ¬w.initialized = true := by simp [hinit]
  have hmemalign : ∀ {alignment size : ℕ} {Q : ℕ → World σ → Prop},
      (∀ p w', R.Goes none w w' → (p ≠ 0 → R.New w .early size p w') → Q p w') →
      wp h (process.platform.memalign alignment size) Q E w := by
    intro alignment size Q hQ
    rw [Platform.memalign, wp_bind]
    refine R.wp_state ?_
    rw [if_neg hstate]
    exact R.wp_earlyMalloc ok hQ
  have hvalloc : ∀ {size : ℕ} {Q : ℕ → World σ → Prop},
      (∀ p w', R.Goes none w w' → (p ≠ 0 → R.New w .early size p w') → Q p w') →
      wp h (process.platform.valloc size) Q E w := by
    intro size Q hQ
    rw [Platform.valloc, wp_bind]
    refine R.wp_state ?_
    rw [if_neg hstate]
    exact R.wp_earlyMalloc ok hQ
  cases api with
  | malloc size =>
    rw [Api.run, Platform.malloc, wp_bind]
    refine R.wp_state ?_
    rw [if_neg hstate]
    exact R.wp_earlyMalloc ok fun p w' hgoes hp => .of_size rfl hgoes hp
  | calloc count size =>
    rw [Api.run, Platform.calloc, wp_bind]
    refine R.wp_state ?_
    rw [if_neg hstate]
    dsimp only
    cases htotal : checkedMul count size with
    | none =>
      -- the largest size of all is refused
      have hnone : checkedAdd (max (usizeSize - 1) 16) (16 - 1) = none := by decide
      rw [wp_bind, Option.getD_none, Platform.earlyMalloc, hnone]
      exact .of_null (R.refl ok)
    | some total =>
      rw [wp_bind, Option.getD_some]
      refine R.wp_earlyMalloc ok fun p w' hgoes hp => ?_
      rw [wp_ite]
      split
      · rw [wp_bind]
        exact R.wp_scalarFill (R.ok hgoes) fun w'' hgoes' =>
          .of_size htotal (R.trans hgoes hgoes') fun hne => R.new_trans (hp hne) hgoes'
      · exact .of_size htotal hgoes hp
  | realloc p size =>
    rw [Api.run, Platform.realloc, wp_bind]
    refine R.wp_state ?_
    rw [if_neg hstate]
    exact .of_null (R.refl ok)
  | memalign alignment size => exact hmemalign fun p w' hgoes hp => .of_size rfl hgoes hp
  | alignedAlloc alignment size =>
    rw [Api.run, Platform.alignedAlloc]
    split
    · exact R.wp_fail ok fun w' hgoes => .of_null hgoes
    · exact hmemalign fun p w' hgoes hp => .of_size rfl hgoes hp
  | posixMemalign output alignment size =>
    rw [Api.run, wp_bind, Platform.posixMemalign]
    split
    · exact .of_null (R.refl ok)
    rw [wp_bind]
    refine hmemalign fun p w' hgoes hp => ?_
    rw [wp_ite]
    split
    · exact .of_null hgoes
    · exact .of_size rfl hgoes hp
  | valloc size => exact hvalloc fun p w' hgoes hp => .of_size rfl hgoes hp
  | pvalloc size =>
    rw [Api.run, Platform.pvalloc]
    split
    · exact R.wp_fail ok fun w' hgoes => .of_null hgoes
    · rename_i rounded hrounded
      exact hvalloc fun p w' hgoes hp => .of_size hrounded hgoes hp
  | free p =>
    rw [Api.run, wp_bind, Platform.free, wp_bind]
    refine R.wp_state ?_
    rw [if_neg hstate]
    exact .of_null (R.refl ok)
  | mallocUsableSize p =>
    rw [Api.run, wp_bind]
    exact R.wp_mallocUsableSize ok harg fun n w' hgoes => .of_null hgoes

/-- Whether or not the library is initialized, what is returned was just handed out. -/
theorem wp_call (ok : R.Ok w) (harg : api.argument = 0 ∨ ∃ x, R.Owns w x api.argument) :
    wp h (api.run process.platform) (fun p w' => R.Answers api w p w' ∧ (p ≠ 0 → ∃ x size,
      api.effectiveSize process.platform = some size ∧ R.New w x size p w')) E w := by
  cases hinit : w.initialized with
  | true =>
    refine wp_mono (R.wp_run ok hinit harg) (fun p w' hr => ⟨hr.toAnswers, fun hne => ?_⟩)
      fun _ he => he
    cases hsize : api.effectiveSize process.platform with
    | none => exact absurd (hr.null hsize) hne
    | some size => exact ⟨_, size, rfl, hr.placed size hsize hne⟩
  | false =>
    refine wp_mono (R.wp_run_early ok hinit harg) (fun p w' hr => ⟨hr.toAnswers, fun hne => ?_⟩)
      fun _ he => he
    cases hsize : api.effectiveSize process.platform with
    | none => exact absurd (hr.null hsize) hne
    | some size => exact ⟨_, size, rfl, hr.placed hne size hsize⟩

end Rules

end Cxlalloc.Preload.Process
