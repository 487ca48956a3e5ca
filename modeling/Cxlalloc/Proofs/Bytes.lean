/-
The blocks the allocators hold.

A block that was handed out lies in the region of its allocator, so blocks of different
allocators never meet; blocks of libc keep clear of each other by its contract, and blocks
of the arena as long as its extents do (`HeldBy.apart`).

Every event carries the blocks along, the one that is given back apart (`Carries`).  That
makes a second instance of the rules in `Proofs/Routing.lean`, and with it the invariant of
a session: what a caller holds, with the size it asked for, is what an allocator holds.
-/
import Cxlalloc.Preload.Bytes
import Cxlalloc.Proofs.Interpose

namespace Cxlalloc.Preload

open Function
open Lib.Prog (wp_ok)
open Relation

/-! ### Tables -/

namespace Extents

variable {arena : DaxArena} {extents extents' : Extents} {lock : Except ArenaError Unit}
  {size alignment p : ℕ}

/-- The extents are made of whole units and large enough for what was asked for. -/
def Cut (arena : DaxArena) (extents : Extents) : Prop :=
  ∀ i, (extents i).active = true → arena.alignment ∣ (extents i).offset ∧
    arena.alignment ∣ (extents i).roundedLen ∧ (extents i).requestedLen ≤ (extents i).roundedLen

theorem Cut.empty : Extents.empty.Cut arena := by
  simp [Cut, Extents.empty, Extent.empty]

theorem Cut.allocate (cut : extents.Cut arena)
    (h : arena.allocate lock size alignment extents = some (.ok (p, extents'))) :
    extents'.Cut arena := by
  have hp := (DaxArena.allocate_aligned h).2
  obtain ⟨slot, len, c, -, hdvd, hlen, -, -, -, -, rfl, rfl⟩ := DaxArena.allocate_eq_ok h
  have hc : arena.alignment ∣ c := (Nat.dvd_add_right arena.base_aligned).mp hp
  exact (forall_update (P := fun e => arena.alignment ∣ e.offset ∧ arena.alignment ∣ e.roundedLen ∧
    e.requestedLen ≤ e.roundedLen)).mpr ⟨fun _ => ⟨hc, hdvd, hlen⟩, fun i _ => cut i⟩

theorem Cut.deallocate (cut : extents.Cut arena)
    (h : arena.deallocate lock p extents = .ok extents') : extents'.Cut arena := by
  obtain ⟨slot, -, -, rfl⟩ := DaxArena.deallocate_eq_ok h
  exact (forall_update (P := fun e => arena.alignment ∣ e.offset ∧ arena.alignment ∣ e.roundedLen ∧
    e.requestedLen ≤ e.roundedLen)).mpr ⟨by simp [Extent.empty], fun i _ => cut i⟩

end Extents

/-! ### Blocks -/

namespace Process

variable {τ : Type} {process : Process (τ × Bytes)} {held : Blocks τ} {w w' w'' : World (τ × Bytes)}
  {x y : Producer} {f : Option ℕ} {p q m k n a : ℕ}

/-- The invariant between events. -/
structure Sane (process : Process (τ × Bytes)) (w : World (τ × Bytes)) : Prop where
  inv : process.Inv w
  cut : ∀ arena, process.state.arena = some arena → w.extents.Cut arena

theorem not_foreign_iff : ¬process.Foreign a ↔ process.Region a .libc := by
  simp [Foreign, Region]

/-- A block lies in the region of its allocator. -/
theorem HeldBy.span (contract : process.Contract held) (sane : process.Sane w)
    (h : process.HeldBy held w x p m) (ha : p ≤ a) (hlt : a < p + max m 1) :
    process.Region a x := by
  cases x with
  | early =>
    obtain ⟨hearly, hend⟩ := h
    simp only [Region, Platform.isEarlyPointer, Bool.and_eq_true, decide_eq_true_eq] at hearly ⊢
    omega
  | libc =>
    obtain ⟨u, hu⟩ := h
    obtain ⟨-, hstart, hrange⟩ := contract.own _ p m u hu
    have hle := contract.usable _ p m u hu
    rw [← not_foreign_iff]
    by_cases hap : a = p
    · exact hap ▸ hstart
    · exact hrange a ha (by omega)
  | arena =>
    obtain ⟨arena, i, harena, hactive, rfl, hlen⟩ := h
    have hinside := (sane.inv.table arena harena).inside i hactive
    have hcut := (sane.cut arena harena i hactive).2.2
    have howns : arena.owns a ≠ false := by
      rw [Ne, DaxArena.owns_eq_false_iff]
      omega
    rw [Region, State.arenaOwns, harena, Option.any_some]
    simpa using howns

theorem HeldBy.region (contract : process.Contract held) (sane : process.Sane w)
    (h : process.HeldBy held w x p m) : process.Region p x :=
  h.span contract sane le_rfl (by omega)

theorem HeldBy.ne_zero (contract : process.Contract held) (h : process.HeldBy held w x p m) :
    p ≠ 0 := by
  cases x with
  | early =>
    have hpos := process.platform.earlyBase_pos
    have hearly := h.1
    simp only [Platform.isEarlyPointer, Bool.and_eq_true, decide_eq_true_eq] at hearly
    omega
  | libc =>
    obtain ⟨u, hu⟩ := h
    exact (contract.own _ p m u hu).1
  | arena =>
    obtain ⟨arena, i, -, -, rfl, -⟩ := h
    have := arena.base_pos
    omega

/-- Two blocks do not meet.  The early buffer is left out: there, the blocks are not
recorded one by one. -/
theorem HeldBy.apart (contract : process.Contract held) (sane : process.Sane w)
    (sep : ∀ arena, process.state.arena = some arena → w.extents.Separate arena)
    (hp : process.HeldBy held w x p m) (hq : process.HeldBy held w y q k) (hne : p ≠ q)
    (hy : y ≠ .early) : p + m ≤ q ∨ q + k ≤ p := by
  by_cases hxy : x = y
  · subst hxy
    cases x with
    | early => exact absurd rfl hy
    | libc =>
      obtain ⟨u, hu⟩ := hp
      obtain ⟨v, hv⟩ := hq
      have hm := contract.usable _ p m u hu
      have hk := contract.usable _ q k v hv
      rcases contract.apart _ p m u q k v hu hv hne with h | h <;> omega
    | arena =>
      obtain ⟨arena, i, harena, hi, rfl, hm⟩ := hp
      obtain ⟨arena', j, harena', hj, rfl, hk⟩ := hq
      obtain rfl := Option.some.inj (harena.symm.trans harena')
      have hij : i ≠ j := by
        rintro rfl
        exact hne rfl
      have hi' := (sane.cut arena harena i hi).2.2
      have hj' := (sane.cut arena harena j hj).2.2
      rcases (sep arena harena).disjoint i j hij hi hj with h | h <;> omega
  · -- an address in both would be in both regions
    by_contra hmeet
    exact hxy ((hp.span contract sane (le_max_left p q) (by omega)).unique
      (hq.span contract sane (le_max_right p q) (by omega)))

/-- No block is held there. -/
def Vacant (process : Process (τ × Bytes)) (held : Blocks τ) (w : World (τ × Bytes)) (p : ℕ) :
    Prop :=
  ∀ x m, ¬process.HeldBy held w x p m

/-- It is enough to look at the allocator of the region. -/
theorem vacant_of_region (contract : process.Contract held) (sane : process.Sane w)
    (hp : process.Region p x) (h : ∀ m, ¬process.HeldBy held w x p m) :
    process.Vacant held w p := by
  intro y m hy
  obtain rfl := hp.unique (hy.region contract sane)
  exact h m hy

/-- What any part of a call does to the blocks: they are still held, but for the one that
may have been given back. -/
structure Carries (process : Process (τ × Bytes)) (held : Blocks τ) (f : Option ℕ)
    (w w' : World (τ × Bytes)) : Prop where
  goes : process.Goes w w'
  cut : ∀ arena, process.state.arena = some arena → w'.extents.Cut arena
  held : ∀ x q m, some q ≠ f → process.HeldBy held w x q m → process.HeldBy held w' x q m

theorem Carries.sane (h : process.Carries held f w w') : process.Sane w' :=
  ⟨h.goes.inv, h.cut⟩

theorem Carries.weaken (h : process.Carries held none w w') : process.Carries held f w w' :=
  ⟨h.goes, h.cut, fun x q m _ => h.held x q m nofun⟩

theorem Carries.trans (h : process.Carries held none w w') (h' : process.Carries held f w' w'') :
    process.Carries held f w w'' :=
  ⟨h.goes.trans h'.goes, h'.cut, fun x q m hq hx => h'.held x q m hq (h.held x q m nofun hx)⟩

theorem Carries.trans_none (h : process.Carries held f w w')
    (h' : process.Carries held none w' w'') : process.Carries held f w w'' :=
  ⟨h.goes.trans h'.goes, h'.cut, fun x q m hq hx => h'.held x q m nofun (h.held x q m hq hx)⟩

/-- A block of another allocator than the arena depends on its table in libc only. -/
theorem HeldBy.of_libc (hx : x ≠ .arena) (hlibc : ∀ b, held w.libc.1 p = some b →
    held w'.libc.1 p = some b) (h : process.HeldBy held w x p m) : process.HeldBy held w' x p m := by
  cases x with
  | early => exact h
  | arena => exact absurd rfl hx
  | libc =>
    obtain ⟨u, hu⟩ := h
    exact ⟨u, hlibc _ hu⟩

/-- An event of libc: only its own table changes, and only where it was given a block. -/
theorem Carries.of_libc (sane : process.Sane w) (hgoes : process.Goes w w')
    (hextents : w'.extents = w.extents)
    (hheld : ∀ q b, some q ≠ f → held w.libc.1 q = some b → held w'.libc.1 q = some b) :
    process.Carries held f w w' := by
  refine ⟨hgoes, fun arena harena => hextents ▸ sane.cut arena harena, fun x q m hq hx => ?_⟩
  by_cases harena : x = .arena
  · subst harena
    rw [HeldBy] at hx ⊢
    rwa [hextents]
  · exact hx.of_libc harena fun b => hheld q b hq

/-- An event that leaves both tables alone. -/
theorem Carries.of_eq (sane : process.Sane w) (hgoes : process.Goes w w')
    (hextents : w'.extents = w.extents) (hheld : held w'.libc.1 = held w.libc.1) :
    process.Carries held f w w' :=
  .of_libc sane hgoes hextents fun q b _ hb => by rwa [hheld]

theorem Sane.carries_self (sane : process.Sane w) : process.Carries held none w w :=
  .of_eq sane sane.inv.goes_self rfl rfl

/-! ### Events -/

/-- A block was handed out. -/
structure New (process : Process (τ × Bytes)) (held : Blocks τ) (w : World (τ × Bytes))
    (x : Producer) (n p : ℕ) (w' : World (τ × Bytes)) : Prop where
  returned : Returned w x p w'
  held : process.HeldBy held w' x p n

/-- Libc was asked for a block. -/
theorem Hands.carries (contract : process.Contract held) (sane : process.Sane w)
    {r : ℕ × (τ × Bytes)} (hands : process.Hands held n w.libc r)
    (hr : (∃ size, process.real.malloc size w.libc = r) ∨
      (∃ count size, process.real.calloc count size w.libc = r) ∨
      (∃ q size, process.real.realloc q size w.libc = r) ∨
      (∃ alignment size, process.real.memalign alignment size w.libc = r)) :
    process.Carries held none w (produce { w with libc := r.2 } r.1 .libc) ∧
      (r.1 ≠ 0 → process.New held w .libc n r.1 (produce { w with libc := r.2 } r.1 .libc)) ∧
      (r.1 ≠ 0 → process.Vacant held w r.1) := by
  obtain ⟨hgoes, hreturned⟩ := sane.inv.real hr
  have hnew : r.1 ≠ 0 →
      process.New held w .libc n r.1 (produce { w with libc := r.2 } r.1 .libc) := by
    intro hne
    obtain ⟨-, u, hu⟩ := hands.block hne
    refine ⟨hreturned hne, u, ?_⟩
    rw [produce_libc, hu, update_self]
  refine ⟨.of_libc sane hgoes (produce_extents ..) fun q b _ hb => ?_, hnew, fun hne => ?_⟩
  · rw [produce_libc]
    by_cases hne : r.1 = 0
    · rw [hands.null hne]
      exact hb
    · obtain ⟨hnone, u, hu⟩ := hands.block hne
      have hqr : q ≠ r.1 := by
        rintro rfl
        rw [hnone] at hb
        cases hb
      rw [hu, update_of_ne hqr]
      exact hb
  · refine vacant_of_region contract sane (hgoes.inv.region _ _ (hreturned hne).mem) ?_
    rintro m ⟨u, hu⟩
    rw [(hands.block hne).1] at hu
    cases hu

/-- Libc resized a block, or answered null and left it. -/
theorem Contract.carries_realloc (contract : process.Contract held) (sane : process.Sane w)
    (hp : process.HeldBy held w .libc p m) (hn : 0 < n) : let r := process.real.realloc p n w.libc
    let w' := produce { w with libc := r.2 } r.1 .libc
    process.Carries held (some p) w w' ∧ (r.1 = 0 → process.Carries held none w w') ∧
      (r.1 ≠ 0 → process.New held w .libc n r.1 w') := by
  intro r w'
  obtain ⟨u, hu⟩ := hp
  have hreal : process.Goes w w' ∧ (r.1 ≠ 0 → Returned w .libc r.1 w') :=
    sane.inv.real (.inr (.inr (.inl ⟨p, n, rfl⟩)))
  obtain ⟨hgoes, hreturned⟩ := hreal
  have hextents : w'.extents = w.extents := produce_extents ..
  have hlibc : w'.libc = r.2 := produce_libc ..
  by_cases hne : r.1 = 0
  · have hsame : process.Carries held none w w' :=
      .of_eq sane hgoes hextents (hlibc ▸ (contract.realloc_null p n m u w.libc hu hn hne).1)
    exact ⟨hsame.weaken, fun _ => hsame, fun h => absurd hne h⟩
  · obtain ⟨hplace, ⟨v, hv⟩, -, -⟩ := contract.realloc_block p n m u w.libc hu hn hne
    refine ⟨.of_libc sane hgoes hextents fun q b hq hb => ?_, fun h => absurd h hne,
      fun _ => ⟨hreturned hne, v, ?_⟩⟩
    · have hqp : q ≠ p := fun h => hq (congrArg some h)
      have hqr : q ≠ r.1 := by
        rintro rfl
        rcases hplace with h | h
        · exact hqp h
        · rw [h] at hb
          cases hb
      rw [hlibc, hv, update_of_ne hqr, update_of_ne hqp]
      exact hb
    · rw [hlibc, hv, update_self]

theorem Contract.carries_free (contract : process.Contract held) (sane : process.Sane w)
    (hp : process.HeldBy held w .libc p m) :
    process.Carries held (some p) w { w with libc := process.real.free p w.libc } := by
  obtain ⟨u, hu⟩ := hp
  refine .of_libc sane (sane.inv.goes_of_eq rfl rfl) rfl fun q b hq hb => ?_
  have hqp : q ≠ p := fun h => hq (congrArg some h)
  rw [(contract.free p m u w.libc hu).1, update_of_ne hqp]
  exact hb

/-- The arena was asked for a block. -/
theorem Carries.allocate (contract : process.Contract held) (sane : process.Sane w)
    {arena : DaxArena} {lock : Except ArenaError Unit} {alignment : ℕ} (hgoes : process.Goes w w')
    (harena : process.state.arena = some arena) (hheld : held w'.libc.1 = held w.libc.1)
    (h : arena.allocate lock n alignment w.extents = some (.ok (p, w'.extents))) :
    process.Carries held none w w' ∧ process.HeldBy held w' .arena p n ∧
      process.Vacant held w p := by
  have hcut := (sane.cut arena harena).allocate h
  have hregion : process.Region p .arena := by
    rw [Region, State.arenaOwns, harena]
    exact DaxArena.allocate_owns h
  obtain ⟨slot, len, c, -, -, -, hslot, -, -, -, rfl, hextents⟩ := DaxArena.allocate_eq_ok h
  have hother : ∀ i, (w.extents i).active = true → i ≠ slot ∧ w'.extents i = w.extents i := by
    intro i hi
    have hne : i ≠ slot := by
      rintro rfl
      rw [hslot] at hi
      cases hi
    exact ⟨hne, by rw [hextents, update_of_ne hne]⟩
  refine ⟨⟨hgoes, fun a ha => ?_, fun x q m _ hx => ?_⟩, ⟨arena, slot, harena, ?_⟩,
    vacant_of_region contract sane hregion ?_⟩
  · obtain rfl := Option.some.inj (harena.symm.trans ha)
    exact hcut
  · by_cases hx' : x = .arena
    · subst hx'
      obtain ⟨arena', i, harena', hi, hq, hm⟩ := hx
      refine ⟨arena', i, harena', ?_⟩
      rw [(hother i hi).2]
      exact ⟨hi, hq, hm⟩
    · exact hx.of_libc hx' fun b hb => by rwa [hheld]
  · rw [hextents, update_self]
    exact ⟨rfl, rfl, rfl⟩
  · -- two extents of the new table would start at one offset
    rintro m ⟨arena', i, harena', hi, hoffset, -⟩
    obtain rfl := Option.some.inj (harena.symm.trans harena')
    refine (hother i hi).1 ((hgoes.inv.table arena harena).inj i slot ?_ ?_ ?_)
    · rw [(hother i hi).2, hi]
    · rw [hextents, update_self]
    · rw [(hother i hi).2, hextents, update_self]
      dsimp only
      omega

theorem Carries.deallocate (sane : process.Sane w) {arena : DaxArena}
    {lock : Except ArenaError Unit} (hgoes : process.Goes w w')
    (harena : process.state.arena = some arena) (hheld : held w'.libc.1 = held w.libc.1)
    (h : arena.deallocate lock p w.extents = .ok w'.extents) :
    process.Carries held (some p) w w' := by
  have hcut := (sane.cut arena harena).deallocate h
  obtain ⟨slot, -, rfl, hextents⟩ := DaxArena.deallocate_eq_ok h
  refine ⟨hgoes, fun a ha => ?_, fun x q m hq hx => ?_⟩
  · obtain rfl := Option.some.inj (harena.symm.trans ha)
    exact hcut
  by_cases hx' : x = .arena
  · subst hx'
    obtain ⟨arena', i, harena', hi, rfl, hm⟩ := hx
    obtain rfl := Option.some.inj (harena.symm.trans harena')
    have hne : i ≠ slot := by
      rintro rfl
      exact hq rfl
    refine ⟨arena, i, harena, ?_⟩
    rw [hextents, update_of_ne hne]
    exact ⟨hi, rfl, hm⟩
  · exact hx.of_libc hx' fun b hb => by rwa [hheld]

/-- The rules that say which blocks are held. -/
def byteRules (contract : process.Contract held) : process.Rules process.handleBytes where
  Ok := process.Sane
  Owns w x p := (p, x) ∈ w.returned ∧ ∃ m, process.HeldBy held w x p m
  Goes f w w' := process.Carries held f w w'
  New w x n p w' := process.New held w x n p w'
  Fresh w p := process.Vacant held w p
  refl sane := sane.carries_self
  trans h h' := h.trans h'
  trans_none h h' := h.trans_none h'
  weaken h := h.weaken
  ok h := h.sane
  owns h hp := by
    obtain ⟨hmem, m, hm⟩ := hp
    exact ⟨h.goes.mem hmem, m, h.held _ _ m nofun hm⟩
  region sane hp := sane.inv.region _ _ hp.1
  new_trans h h' := ⟨h.returned.trans h'.goes, h'.held _ _ _ nofun h.held⟩
  trans_new h h' := ⟨h.goes.trans_returned h'.returned, h'.held⟩
  survives hfresh h hp h' := by
    obtain ⟨-, m, hm⟩ := hp
    refine ⟨h.returned.trans h'.goes, h'.held _ _ _ (fun heq => ?_) h.held⟩
    obtain rfl := Option.some.inj heq
    exact hfresh _ m hm
  early_le h hle := ⟨h.returned, h.held.1, le_trans (Nat.add_le_add_left hle _) h.held.2⟩
  state _ := rfl
  setErrno _ sane := ⟨_, rfl, .of_eq sane (sane.inv.goes_of_eq rfl rfl) rfl rfl⟩
  realMalloc n sane :=
    ⟨_, _, rfl, (contract.malloc n _).carries contract sane (.inl ⟨n, rfl⟩)⟩
  realCalloc count n sane := by
    obtain ⟨hgoes, hnew, -⟩ := (contract.calloc count n _).carries contract sane
      (.inr (.inl ⟨count, n, rfl⟩))
    exact ⟨_, _, rfl, hgoes, hnew⟩
  realMemalign a n sane := by
    obtain ⟨hgoes, hnew, -⟩ := (contract.memalign a n _).carries contract sane
      (.inr (.inr (.inr ⟨a, n, rfl⟩)))
    exact ⟨_, _, rfl, hgoes, hnew⟩
  realRealloc p n sane hp hn := by
    obtain ⟨hmem, m, hm⟩ := hp
    exact ⟨_, _, sane.inv.handTo hmem, contract.carries_realloc sane hm hn⟩
  realFree p sane hp := by
    obtain ⟨hmem, m, hm⟩ := hp
    exact ⟨_, sane.inv.handTo hmem, contract.carries_free sane hm⟩
  realMallocUsableSize p sane hp := by
    obtain ⟨hmem, m, u, hu⟩ := hp
    exact ⟨_, _, sane.inv.handTo hmem, .of_eq sane (sane.inv.goes_of_eq rfl rfl) rfl
      (contract.mallocUsableSize p m u _ hu).2.1⟩
  arenaAllocate arena n a sane harena := by
    obtain ⟨r, w', hev, hgoes, hlibc, hr⟩ := sane.inv.arenaAllocate harena n a
    have hheld := hlibc ▸ (contract.lock _).1
    obtain ⟨e, rfl, hextents⟩ | ⟨q, rfl, -, hq, hallocate⟩ := hr
    · exact ⟨_, w', hev, .of_eq sane hgoes hextents hheld, fun _ h => (nomatch h)⟩
    · obtain ⟨hcarries, hblock, hvacant⟩ :=
        Carries.allocate contract sane hgoes harena hheld hallocate
      refine ⟨_, w', hev, hcarries, fun p hp => ?_⟩
      obtain rfl := Except.ok.inj hp
      exact ⟨⟨hq, hblock⟩, hvacant⟩
  arenaDeallocate arena p sane harena hp := by
    obtain ⟨r, w', hev, hgoes, hlibc, hr⟩ := sane.inv.arenaDeallocate harena hp.1
    have hheld := hlibc ▸ (contract.lock _).1
    obtain ⟨e, -, hextents⟩ | hdeallocate := hr
    · exact ⟨r, w', hev, .of_eq sane hgoes hextents hheld⟩
    · exact ⟨r, w', hev, .deallocate sane hgoes harena hheld hdeallocate⟩
  arenaAllocationSize _ p sane hp :=
    ⟨_, _, sane.inv.handTo hp.1, .of_eq sane (sane.inv.goes_of_eq rfl rfl) rfl (contract.lock _).1⟩
  earlyReserve n sane hn := by
    obtain ⟨r, w', hev, hgoes, hlibc, hextents, hr⟩ := sane.inv.earlyReserve hn
    refine ⟨r, w', hev, .of_eq sane hgoes hextents (by rw [hlibc]), fun offset hoffset => ?_⟩
    obtain ⟨hle, hreturned⟩ := hr offset hoffset
    refine ⟨hreturned, hgoes.inv.region _ _ hreturned.mem, ?_⟩
    rw [Nat.add_assoc]
    exact Nat.add_le_add_left hle _
  scalarFill _ _ _ sane := ⟨_, rfl, .of_eq sane (sane.inv.goes_of_eq rfl rfl) rfl rfl⟩
  scalarCopy _ _ _ sane := ⟨_, rfl, .of_eq sane (sane.inv.goes_of_eq rfl rfl) rfl rfl⟩

end Process

/-! ### Runs -/

namespace ByteSession

variable {τ : Type} {process : Process (τ × Bytes)} {held : Blocks τ} {s s' : ByteSession τ}
  {libc : τ × Bytes} {w' : World (τ × Bytes)}

/-- The invariant of a session: what callers hold, an allocator holds. -/
structure Sound (process : Process (τ × Bytes)) (held : Blocks τ) (s : ByteSession τ) : Prop where
  sane : process.Sane s.world
  live : ∀ p m, s.live p = some m →
    ∃ x, (p, x) ∈ s.world.returned ∧ process.HeldBy held s.world x p m

theorem Sound.argument {api : Api} (hs : s.Sound process held) (hlegal : s.Legal (.call api)) :
    api.argument = 0 ∨ ∃ x, (api.argument, x) ∈ s.world.returned ∧
      ∃ m, process.HeldBy held s.world x api.argument m := by
  refine hlegal.imp_right fun hlive => ?_
  obtain ⟨m, hm⟩ := Option.isSome_iff_exists.mp hlive
  obtain ⟨x, hx, hheld⟩ := hs.live _ m hm
  exact ⟨x, hx, m, hheld⟩

/-- Each step keeps the session in order. -/
theorem Sound.step (contract : process.Contract held) {a : ByteStep} (hs : s.Sound process held)
    (hlegal : s.Legal a) (hstep : s.step process a = .ok s') : s'.Sound process held := by
  cases a with
  | init =>
    obtain rfl := Except.ok.inj hstep
    exact ⟨⟨⟨hs.sane.inv.region, hs.sane.inv.table⟩, hs.sane.cut⟩, hs.live⟩
  | write p i v =>
    obtain rfl := Except.ok.inj hstep
    exact ⟨⟨⟨hs.sane.inv.region, hs.sane.inv.table⟩, hs.sane.cut⟩, hs.live⟩
  | call api =>
    rw [ByteSession.step] at hstep
    split at hstep
    · cases hstep
    rename_i result w' hexec
    obtain rfl := Except.ok.inj hstep
    obtain ⟨hanswers, hnew⟩ := wp_ok ((Process.byteRules contract).wp_call (E := fun _ => False)
      hs.sane (hs.argument hlegal)) hexec
    have hcarries : process.Carries held (some api.argument) s.world w' := hanswers.goes
    refine ⟨hcarries.sane, fun p m hp => ?_⟩
    -- what was held before and not passed in, or not consumed
    have hold : ∀ p m, (if api.consumes result then update s.live api.argument none
        else s.live) p = some m →
        ∃ x, (p, x) ∈ w'.returned ∧ process.HeldBy held w' x p m := by
      intro p m hp
      split at hp
      · by_cases hpa : p = api.argument
        · subst hpa
          rw [update_self] at hp
          cases hp
        · rw [update_of_ne hpa] at hp
          obtain ⟨x, hx, hheld⟩ := hs.live p m hp
          exact ⟨x, hcarries.goes.mem hx,
            hcarries.held x p m (fun h => hpa (Option.some.inj h)) hheld⟩
      · rename_i hkept
        have hkept : process.Carries held none s.world w' := hanswers.kept (by simpa using hkept)
        obtain ⟨x, hx, hheld⟩ := hs.live p m hp
        exact ⟨x, hkept.goes.mem hx, hkept.held x p m nofun hheld⟩
    dsimp only at hp
    split at hp
    · exact hold p m hp
    · rename_i hne
      by_cases hpr : p = result
      · subst hpr
        obtain ⟨x, size, hsize, hreturned, hblock⟩ := hnew hne
        rw [update_self, hsize] at hp
        obtain rfl := Option.some.inj hp
        exact ⟨x, hreturned.mem, hblock⟩
      · rw [update_of_ne hpr] at hp
        exact hold p m hp

theorem sound_run (contract : process.Contract held)
    (hrun : ReflTransGen (Step process) (fresh libc) s) : s.Sound process held := by
  induction hrun with
  | refl =>
    refine ⟨⟨PreloadSession.Sound.fresh.inv, fun _ _ => .empty⟩, ?_⟩
    intro p m hp
    cases hp
  | tail _ hstep ih =>
    obtain ⟨a, hlegal, hstep⟩ := hstep
    exact ih.step contract hlegal hstep

end ByteSession

end Cxlalloc.Preload
