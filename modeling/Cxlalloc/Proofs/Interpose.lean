/-
Placement and dispatch of the preload library.

The memory map keeps the three allocators apart, so the address of a pointer says which
of them returned it.  `Inv` states that of every pointer returned so far, and an event keeps
it (`Goes`).  With that the rules of `Proofs/Routing.lean` apply: a pointer that is passed in
is handed on only after its address has been looked at, which is why no call stops with
`misrouted`.
-/
import Cxlalloc.Proofs.Routing

namespace Cxlalloc.Preload

open Lib.Prog (wp wp_ok wp_error)
open Relation

variable {σ : Type} {process : Process σ} {w w' w'' : World σ} {p size : ℕ}

namespace Process

/-- Every pointer returned so far is where its allocator keeps them, and the table of the
arena is in order. -/
structure Inv (process : Process σ) (w : World σ) : Prop where
  region : ∀ p x, (p, x) ∈ w.returned → process.Region p x
  table : ∀ arena, process.state.arena = some arena → w.extents.Ok arena

variable {x : Producer}

theorem Inv.producer_eq (inv : process.Inv w) (hp : (p, x) ∈ w.returned) :
    w.producer p = some x := by
  have hsome : (w.producer p).isSome := by
    rw [World.producer, List.lookup_isSome_iff]
    exact ⟨(p, x), hp, by simp⟩
  obtain ⟨y, hy⟩ := Option.isSome_iff_exists.mp hsome
  obtain ⟨l, r, hsplit, -⟩ := List.lookup_eq_some_iff.mp hy
  have hmem : (p, y) ∈ w.returned := by simp [hsplit]
  rw [hy, Region.unique (inv.region p y hmem) (inv.region p x hp)]

/-- What any part of a call does: it keeps the invariant, and only adds to the pointers
that were returned. -/
structure Goes (process : Process σ) (w w' : World σ) : Prop where
  inv : process.Inv w'
  returned : ∃ new, w'.returned = new ++ w.returned

theorem Goes.trans (h : process.Goes w w') (h' : process.Goes w' w'') : process.Goes w w'' := by
  obtain ⟨new, hnew⟩ := h.returned
  obtain ⟨new', hnew'⟩ := h'.returned
  exact ⟨h'.inv, ⟨new' ++ new, by rw [hnew', hnew, List.append_assoc]⟩⟩

theorem Goes.mem (h : process.Goes w w') (hp : (p, x) ∈ w.returned) : (p, x) ∈ w'.returned := by
  obtain ⟨new, hnew⟩ := h.returned
  rw [hnew]
  exact List.mem_append_right _ hp

theorem Inv.goes_self (inv : process.Inv w) : process.Goes w w :=
  ⟨inv, ⟨[], rfl⟩⟩

/-- Between two states, an allocator returned a pointer. -/
def Returned (w : World σ) (x : Producer) (p : ℕ) (w' : World σ) : Prop :=
  ∃ new, w'.returned = new ++ w.returned ∧ (p, x) ∈ new

theorem Returned.mem (h : Returned w x p w') : (p, x) ∈ w'.returned := by
  obtain ⟨new, hnew, hmem⟩ := h
  exact hnew ▸ List.mem_append_left _ hmem

theorem Returned.trans (h : Returned w x p w') (h' : process.Goes w' w'') : Returned w x p w'' := by
  obtain ⟨new, hnew, hmem⟩ := h
  obtain ⟨new', hnew'⟩ := h'.returned
  exact ⟨new' ++ new, by rw [hnew', hnew, List.append_assoc], List.mem_append_right _ hmem⟩

theorem Goes.trans_returned (h : process.Goes w w') (h' : Returned w' x p w'') :
    Returned w x p w'' := by
  obtain ⟨new, hnew⟩ := h.returned
  obtain ⟨new', hnew', hmem⟩ := h'
  exact ⟨new' ++ new, by rw [hnew', hnew, List.append_assoc], List.mem_append_left _ hmem⟩

@[simp] theorem produce_libc (w : World σ) (p : ℕ) (x : Producer) :
    (produce w p x).libc = w.libc := by
  unfold produce
  split <;> rfl

@[simp] theorem produce_extents (w : World σ) (p : ℕ) (x : Producer) :
    (produce w p x).extents = w.extents := by
  unfold produce
  split <;> rfl

/-- A pointer is returned from the region of its allocator. -/
theorem Inv.produce (inv : process.Inv w) (hp : p ≠ 0 → process.Region p x) :
    process.Goes w (produce w p x) ∧ (p ≠ 0 → Returned w x p (produce w p x)) := by
  unfold Process.produce
  split
  · exact ⟨inv.goes_self, fun h => absurd ‹p = 0› h⟩
  rename_i hne
  refine ⟨⟨⟨fun q y hy => ?_, inv.table⟩, ⟨[(p, x)], rfl⟩⟩, fun _ => ⟨[(p, x)], rfl, by simp⟩⟩
  rcases List.mem_cons.mp hy with heq | hy
  · obtain ⟨rfl, rfl⟩ := Prod.mk.inj heq
    exact hp hne
  · exact inv.region q y hy

/-! ### Events -/

/-- An event that leaves pointers and table alone. -/
theorem Inv.goes_of_eq (inv : process.Inv w) (hreturned : w'.returned = w.returned)
    (htable : w'.extents = w.extents) : process.Goes w w' :=
  ⟨⟨fun p x hx => inv.region p x (hreturned ▸ hx), fun a ha => htable ▸ inv.table a ha⟩,
    ⟨[], hreturned⟩⟩

/-- The pointers libc returns are its own. -/
theorem Inv.real {r : ℕ × σ} (inv : process.Inv w)
    (hr : (∃ size, process.real.malloc size w.libc = r) ∨
      (∃ count size, process.real.calloc count size w.libc = r) ∨
      (∃ q size, process.real.realloc q size w.libc = r) ∨
      (∃ alignment size, process.real.memalign alignment size w.libc = r)) :
    process.Goes w (Process.produce { w with libc := r.2 } r.1 .libc) ∧
      (r.1 ≠ 0 → Returned w .libc r.1 (Process.produce { w with libc := r.2 } r.1 .libc)) := by
  have hlibc : process.Goes w { w with libc := r.2 } := inv.goes_of_eq rfl rfl
  have hapart : r.1 ≠ 0 → process.Region r.1 .libc := fun hne =>
    process.libc_apart r.1 w.libc r.2 hne hr
  obtain ⟨hgoes, hproduced⟩ := hlibc.inv.produce hapart
  exact ⟨hlibc.trans hgoes, fun hne => hlibc.trans_returned (hproduced hne)⟩

/-- An event that is handed a pointer gets one it has returned. -/
theorem Inv.handTo {α : Type} {go : Except Fault α} (inv : process.Inv w)
    (hp : (p, x) ∈ w.returned) : handTo w x p go = go :=
  if_pos (inv.producer_eq hp)

/-- The arena is asked: its lock is taken, and the table changes if there was room.  What it
returns lies in the arena. -/
theorem Inv.arenaAllocate {arena : DaxArena} (inv : process.Inv w)
    (harena : process.state.arena = some arena) (size alignment : ℕ) :
    ∃ r w', process.handle _ (.arenaAllocate arena size alignment) w = .ok (r, w') ∧
      process.Goes w w' ∧ w'.libc = (process.real.lock w.libc).2 ∧
      ((∃ e, r = .error e ∧ w'.extents = w.extents) ∨
        ∃ p, r = .ok p ∧ p ≠ 0 ∧ Returned w .arena p w' ∧
          arena.allocate (process.real.lock w.libc).1 size alignment w.extents
            = some (.ok (p, w'.extents))) := by
  have table := inv.table arena harena
  obtain ⟨r, hr⟩ := arena.allocate_returns (process.real.lock w.libc).1 size alignment table
  rw [handle]
  dsimp only
  rw [hr]
  cases r with
  | error e => exact ⟨_, _, rfl, inv.goes_of_eq rfl rfl, rfl, .inl ⟨e, rfl, rfl⟩⟩
  | ok r =>
    obtain ⟨p, extents⟩ := r
    let w₁ : World σ := { w with libc := (process.real.lock w.libc).2, extents := extents }
    have hgoes : process.Goes w w₁ := by
      refine ⟨⟨inv.region, fun a ha => ?_⟩, ⟨[], rfl⟩⟩
      obtain rfl := Option.some.inj (harena.symm.trans ha)
      exact DaxArena.allocate_ok table hr
    have howns : process.Region p .arena := by
      rw [Region, State.arenaOwns, harena]
      exact DaxArena.allocate_owns hr
    have hne : p ≠ 0 := by
      obtain ⟨slot, len, c, -, -, -, -, -, -, -, rfl, -⟩ := DaxArena.allocate_eq_ok hr
      have := arena.base_pos
      omega
    obtain ⟨hgoes', hproduced⟩ := hgoes.inv.produce fun _ => howns
    refine ⟨_, _, rfl, hgoes.trans hgoes', produce_libc .., .inr ⟨p, rfl, hne, ?_, ?_⟩⟩
    · exact hgoes.trans_returned (hproduced hne)
    · rw [produce_extents]

theorem Inv.arenaDeallocate {arena : DaxArena} (inv : process.Inv w)
    (harena : process.state.arena = some arena) (hp : (p, .arena) ∈ w.returned) :
    ∃ r w', process.handle _ (.arenaDeallocate arena p) w = .ok (r, w') ∧ process.Goes w w' ∧
      w'.libc = (process.real.lock w.libc).2 ∧
      ((∃ e, arena.deallocate (process.real.lock w.libc).1 p w.extents = .error e ∧
          w'.extents = w.extents) ∨
        arena.deallocate (process.real.lock w.libc).1 p w.extents = .ok w'.extents) := by
  rw [handle, inv.handTo hp]
  dsimp only
  cases hr : arena.deallocate (process.real.lock w.libc).1 p w.extents with
  | error e => exact ⟨_, _, rfl, inv.goes_of_eq rfl rfl, rfl, .inl ⟨e, rfl, rfl⟩⟩
  | ok extents =>
    refine ⟨_, _, rfl, ⟨⟨inv.region, fun a ha => ?_⟩, ⟨[], rfl⟩⟩, rfl, .inr rfl⟩
    obtain rfl := Option.some.inj (harena.symm.trans ha)
    exact DaxArena.deallocate_ok (inv.table arena harena) hr

/-- What is reserved in the early buffer lies there. -/
theorem Inv.earlyReserve (inv : process.Inv w) (hsize : 0 < size) :
    ∃ r w', process.handle _ (.earlyReserve size) w = .ok (r, w') ∧ process.Goes w w' ∧
      w'.libc = w.libc ∧ w'.extents = w.extents ∧
      ∀ offset, r = some offset → offset + size ≤ earlySize ∧
        Returned w .early (process.platform.earlyBase + offset) w' := by
  rw [handle]
  cases hstop : (checkedAdd w.earlyOffset size).filter fun stop => decide (stop ≤ earlySize) with
  | none => exact ⟨_, _, rfl, inv.goes_self, rfl, rfl, fun _ h => (nomatch h)⟩
  | some stop =>
    obtain ⟨hadd, hle⟩ := Option.filter_eq_some_iff.mp hstop
    obtain ⟨rfl, -⟩ := checkedAdd_eq_some.mp hadd
    have hle : w.earlyOffset + size ≤ earlySize := by simpa using hle
    have hregion : process.Region (process.platform.earlyBase + w.earlyOffset) .early := by
      simp only [Region, Platform.isEarlyPointer, Bool.and_eq_true, decide_eq_true_eq]
      omega
    have hne : process.platform.earlyBase + w.earlyOffset ≠ 0 := by
      have := process.platform.earlyBase_pos
      omega
    let w₁ : World σ := { w with earlyOffset := w.earlyOffset + size }
    have hgoes : process.Goes w w₁ := inv.goes_of_eq rfl rfl
    obtain ⟨hgoes', hproduced⟩ := hgoes.inv.produce fun _ => hregion
    refine ⟨_, _, rfl, hgoes.trans hgoes', produce_libc .., produce_extents .., ?_⟩
    intro offset hoffset
    obtain rfl := Option.some.inj hoffset
    exact ⟨hle, hgoes.trans_returned (hproduced hne)⟩

/-- The rules that say by whom a pointer was returned. -/
def dispatchRules (process : Process σ) : process.Rules process.handle where
  Ok := process.Inv
  Owns w x p := (p, x) ∈ w.returned
  Goes _ := process.Goes
  New w x _ p w' := Returned w x p w'
  Fresh _ _ := True
  refl inv := inv.goes_self
  trans h h' := h.trans h'
  trans_none h h' := h.trans h'
  weaken h := h
  ok h := h.inv
  owns h hp := h.mem hp
  region inv hp := inv.region _ _ hp
  new_trans h h' := h.trans h'
  trans_new h h' := h.trans_returned h'
  survives _ h _ h' := h.trans h'
  early_le h _ := h
  state _ := rfl
  setErrno _ inv := ⟨_, rfl, inv.goes_of_eq rfl rfl⟩
  realMalloc n inv := by
    obtain ⟨hgoes, hnew⟩ := inv.real (.inl ⟨n, rfl⟩)
    exact ⟨_, _, rfl, hgoes, hnew, fun _ => trivial⟩
  realCalloc count n inv := ⟨_, _, rfl, inv.real (.inr (.inl ⟨count, n, rfl⟩))⟩
  realMemalign a n inv := ⟨_, _, rfl, inv.real (.inr (.inr (.inr ⟨a, n, rfl⟩)))⟩
  realRealloc p n inv hp _ := by
    obtain ⟨hgoes, hnew⟩ := inv.real (.inr (.inr (.inl ⟨p, n, rfl⟩)))
    exact ⟨_, _, inv.handTo hp, hgoes, fun _ => hgoes, hnew⟩
  realFree p inv hp := ⟨_, inv.handTo hp, inv.goes_of_eq rfl rfl⟩
  realMallocUsableSize p inv hp := ⟨_, _, inv.handTo hp, inv.goes_of_eq rfl rfl⟩
  arenaAllocate _ n a inv harena := by
    obtain ⟨r, w', hev, hgoes, -, ⟨e, rfl, -⟩ | ⟨q, rfl, -, hq, -⟩⟩ :=
      inv.arenaAllocate harena n a
    · exact ⟨_, w', hev, hgoes, fun _ h => (nomatch h)⟩
    · exact ⟨_, w', hev, hgoes, fun p hp => ⟨Except.ok.inj hp ▸ hq, trivial⟩⟩
  arenaDeallocate _ _ inv harena hp := by
    obtain ⟨r, w', hev, hgoes, -⟩ := inv.arenaDeallocate harena hp
    exact ⟨r, w', hev, hgoes⟩
  arenaAllocationSize _ p inv hp := ⟨_, _, inv.handTo hp, inv.goes_of_eq rfl rfl⟩
  earlyReserve _ inv hsize := by
    obtain ⟨r, w', hev, hgoes, -, -, hr⟩ := inv.earlyReserve hsize
    exact ⟨r, w', hev, hgoes, fun offset hoffset => (hr offset hoffset).2⟩
  scalarFill _ _ _ inv := ⟨_, rfl, inv.goes_self⟩
  scalarCopy _ _ _ inv := ⟨_, rfl, inv.goes_self⟩

end Process

/-! ### Runs -/

namespace PreloadSession

open Process (Returned)

variable {s s' : PreloadSession σ} {libc : σ}

/-- The invariant of a session: callers hold only pointers that were returned. -/
structure Sound (process : Process σ) (s : PreloadSession σ) : Prop where
  inv : process.Inv s.world
  live : ∀ p ∈ s.live, ∃ x, (p, x) ∈ s.world.returned

theorem Sound.argument {api : Api} (hs : s.Sound process) (hlegal : s.Legal (.call api)) :
    api.argument = 0 ∨ ∃ x, (api.argument, x) ∈ s.world.returned :=
  hlegal.imp_right (hs.live _)

/-- A call that is answered leaves a session that is in order. -/
theorem Sound.answer {api : Api} {result : ℕ} (hs : s.Sound process)
    (hgoes : process.Goes s.world w') (hresult : result ≠ 0 → ∃ x, Returned s.world x result w') :
    Sound process ⟨w', if result = 0 then
        if api.consumes result then s.live.erase api.argument else s.live
      else insert result (if api.consumes result then s.live.erase api.argument else s.live)⟩ := by
  refine ⟨hgoes.inv, fun p hp => ?_⟩
  have hold : ∀ q ∈ s.live, ∃ x, (q, x) ∈ w'.returned := by
    intro q hq
    obtain ⟨x, hx⟩ := hs.live q hq
    exact ⟨x, hgoes.mem hx⟩
  have hkept : p ∈ (if api.consumes result then s.live.erase api.argument else s.live) →
      p ∈ s.live := by
    split
    · exact Finset.mem_of_mem_erase
    · exact id
  dsimp only at hp
  split at hp
  · exact hold p (hkept hp)
  · rename_i hne
    rcases Finset.mem_insert.mp hp with rfl | hp
    · obtain ⟨x, hx⟩ := hresult hne
      exact ⟨x, hx.mem⟩
    · exact hold p (hkept hp)

/-- No step fails, and each keeps the session in order. -/
theorem Sound.step {a : PreloadStep} (hs : s.Sound process) (hlegal : s.Legal a)
    (hstep : s.step process a = .ok s') : s'.Sound process := by
  cases a with
  | init =>
    obtain rfl := Except.ok.inj hstep
    exact ⟨⟨hs.inv.region, hs.inv.table⟩, hs.live⟩
  | call api =>
    rw [PreloadSession.step] at hstep
    split at hstep
    · cases hstep
    rename_i result w' hexec
    obtain rfl := Except.ok.inj hstep
    obtain ⟨hanswers, hnew⟩ := wp_ok (process.dispatchRules.wp_call (E := fun _ => False) hs.inv
      (hs.argument hlegal)) hexec
    refine hs.answer hanswers.goes fun hne => ?_
    obtain ⟨x, _, -, hreturned⟩ := hnew hne
    exact ⟨x, hreturned⟩

theorem Sound.fresh : Sound process (fresh libc) where
  inv := by
    constructor
    · simp [PreloadSession.fresh]
    · exact fun _ _ => .empty
  live := by simp [PreloadSession.fresh]

theorem sound_run (hrun : ReflTransGen (Step process) (fresh libc) s) : s.Sound process := by
  induction hrun with
  | refl => exact .fresh
  | tail _ hstep ih =>
    obtain ⟨a, hlegal, hstep⟩ := hstep
    exact ih.step hlegal hstep

/-- **Placement and dispatch.**  Once the library is initialized, a call with null or a
pointer that is held is answered; in particular it hands no pointer to an allocator that
did not return it.  A result for a request of at least `min_size` bytes was returned by
the arena, and lies in it; any other result was returned by libc. -/
theorem placement (hrun : ReflTransGen (Step process) (fresh libc) s)
    (hinit : s.world.initialized = true) {api : Api} (hlegal : s.Legal (.call api)) :
    ∃ result w', (api.run process.platform).exec process.handle s.world = .ok (result, w') ∧
      (result ≠ 0 → ∃ size, api.effectiveSize process.platform = some size ∧
        (process.state.policy.minSize ≤ size →
          Returned s.world .arena result w' ∧ process.state.arenaOwns result = true) ∧
        (size < process.state.policy.minSize →
          Returned s.world .libc result w' ∧ process.state.arenaOwns result = false)) := by
  have hs := sound_run hrun
  have hwp := process.dispatchRules.wp_run (E := fun _ => False) hs.inv hinit (hs.argument hlegal)
  cases hexec : (api.run process.platform).exec process.handle s.world with
  | error e => exact (wp_error hwp hexec).elim
  | ok r =>
    obtain ⟨result, w'⟩ := r
    have hrouted := wp_ok hwp hexec
    refine ⟨result, w', rfl, fun hne => ?_⟩
    cases hsize : api.effectiveSize process.platform with
    | none => exact absurd (hrouted.null hsize) hne
    | some size =>
      have hplaced := hrouted.placed size hsize hne
      have hregion : ∀ {x}, Returned s.world x result w' → process.Region result x := by
        exact fun hx => hrouted.goes.inv.region result _ hx.mem
      refine ⟨size, rfl, fun hle => ?_, fun hlt => ?_⟩
      · rw [if_pos hle] at hplaced
        exact ⟨hplaced, hregion hplaced⟩
      · rw [if_neg (by omega)] at hplaced
        exact ⟨hplaced, (hregion hplaced).1⟩

theorem run_of_script {as : List PreloadStep} (h : script process as s = some s') :
    ReflTransGen (Step process) s s' := by
  refine Lib.run_of_foldlM (fun s a s' h => ?_) h
  obtain ⟨hlegal, hstep⟩ := Lib.of_attempt h
  exact ⟨a, hlegal, hstep⟩

end PreloadSession

/-! ### A fixed run -/

/-- A libc that never uses an address twice. -/
def RealAlloc.bump : RealAlloc ℕ where
  malloc _ n := (2 ^ 50 + n, n + 1)
  calloc _ _ n := (2 ^ 50 + n, n + 1)
  realloc _ _ n := (2 ^ 50 + n, n + 1)
  free _ n := n
  memalign _ _ n := (2 ^ 50 + n, n + 1)
  mallocUsableSize _ n := (0, n)
  lock n := (.ok (), n)

/-- The arena of 16 MiB, with the default threshold. -/
def exampleProcess : Process ℕ where
  platform := { earlyBase := 2 ^ 40, pageSize := 4096, earlyBase_pos := by decide }
  state := { policy := { minSize := 2 ^ 21 }, arena := some ArenaSession.example16M }
  real := .bump
  libc_apart := by
    intro p n n' hp h
    have hge : 2 ^ 50 ≤ p := by
      rcases h with ⟨_, h⟩ | ⟨_, _, h⟩ | ⟨_, _, h⟩ | ⟨_, _, h⟩ <;>
        exact (Prod.mk.inj h).1 ▸ Nat.le_add_right _ _
    constructor
    · rw [State.arenaOwns, Option.any_some, DaxArena.owns_eq_false_iff]
      refine .inr (le_trans ?_ hge)
      decide
    · simp only [Platform.isEarlyPointer, Bool.and_eq_false_iff, decide_eq_false_iff_not, not_lt]
      refine .inr (le_trans ?_ hge)
      decide
  early_apart := by
    intro p hp
    simp only [Platform.isEarlyPointer, Bool.and_eq_true, decide_eq_true_eq] at hp
    rw [State.arenaOwns, Option.any_some, DaxArena.owns_eq_false_iff]
    refine .inr (le_trans ?_ hp.1)
    decide

theorem exampleProcess_region (hp : 2 ^ 50 ≤ p) : exampleProcess.Region p .libc := by
  obtain ⟨n, rfl⟩ := Nat.exists_eq_add_of_le hp
  exact exampleProcess.libc_apart _ n _ (by omega) (.inl ⟨0, rfl⟩)

/-- A buffer from the arena is moved to libc. -/
theorem PreloadSession.placement_realloc : ∃ s : PreloadSession ℕ,
    ReflTransGen (Step exampleProcess) (fresh 0) s ∧ s.live = {2 ^ 22, 2 ^ 40} ∧
      ∃ result w', ((Api.realloc (2 ^ 22) 100).run exampleProcess.platform).exec
          exampleProcess.handle s.world = .ok (result, w') ∧
        (result ≠ 0 → ∃ size,
          (Api.realloc (2 ^ 22) 100).effectiveSize exampleProcess.platform = some size ∧
          (exampleProcess.state.policy.minSize ≤ size → Process.Returned s.world .arena result w' ∧
            exampleProcess.state.arenaOwns result = true) ∧
          (size < exampleProcess.state.policy.minSize → Process.Returned s.world .libc result w' ∧
            exampleProcess.state.arenaOwns result = false)) := by
  let steps : List PreloadStep :=
    [.call (.malloc 64), .init, .call (.malloc (3 * 2 ^ 20))]
  have heval : (script exampleProcess steps (fresh 0)).map
      (fun s => (s.world.initialized, s.live)) = some (true, {2 ^ 22, 2 ^ 40}) := by
    decide +kernel
  obtain ⟨s, hs, hentries⟩ := Option.map_eq_some_iff.mp heval
  obtain ⟨hinit, hlive⟩ := Prod.mk.inj hentries
  have hrun := run_of_script hs
  have hlegal : s.Legal (.call (.realloc (2 ^ 22) 100)) := by
    refine .inr ?_
    rw [hlive]
    decide
  exact ⟨s, hrun, hlive, placement hrun hinit hlegal⟩

end Cxlalloc.Preload
