/-
The slab heap under every interleaving: how the threads get along.

Every access that meets what `View.pre` asks for keeps the protocol (`does_pre`), and so does the
return of a block to the application (`does_hand`).  What is left for a thread is to follow its
own programs with its own view.
-/
import Cxlalloc.Proofs.HeapAccesses

namespace Cxlalloc

open Lib
open Lib.Protocol
open Cxlalloc.Bracket
open Function

namespace HeapMem

variable {T B : Type} [Bracket B] [DecidableEq T] {m m' : HeapMem T B} {t u : T}
  {i : Index B} {v v' : View T B} {cfg : Config} {α β : Type}

theorem After.refl (hm : m.Sound) (h : Own t v m) : After t m m v :=
  ⟨hm, .refl t m, h⟩

/-- Whoever frees a block of a slab that names it as owner has carved the slab. -/
theorem Own.not_owner (h : Own t v m) (hm : m.Sound) (hi : v.place i = .away) {b : ℕ} {c : B}
    (hhand : v.hand = some ⟨i, b, c⟩) : m.owner i ≠ some t := by
  intro howner
  have hthread : m.block i b = .thread t := (h.hand i b).mpr ⟨c, hhand⟩
  rcases hm.carved (i := i) (b := b) (by simp [hthread]) with ⟨u, hp⟩ | hp
  · have hu : m.owner i = some u := (hm.slab i).owner u hp
    obtain rfl : t = u := Option.some.inj (howner.symm.trans hu)
    have hsized : v.place i = .sized := h.sized.mpr ⟨hp, b, .inr hthread⟩
    rw [hi] at hsized
    cases hsized
  · have hnone : m.owner i = none := (hm.slab i).disowned hp
    rw [howner] at hnone
    cases hnone

theorem Own.known (h : Own t v m) (hm : m.Sound) : v.Known t i := by
  have hsound := hm.slab i
  have hsized : v.place i = .sized → (m.slab i).place = .sized t := fun hp => (h.sized.mp hp).1
  have hagrees : v.place i = .sized → (v.hold i).Agrees (m.slab i) := fun hp =>
    h.agrees (by simp [hp])
  have hmem : v.place i = .sized → ∀ b, b ∈ (v.bits i).elems ↔ m.block i b = .slab := fun hp => by
    rw [show v.bits i = m.bits i from (hagrees hp).bits.symm]
    exact hsound.mem_bits t (hsized hp)
  refine ⟨fun hp => ?_, fun hp => ?_, fun hp b hb => ?_, fun b c hhand => ⟨fun hp => ?_, fun hp => ?_⟩⟩
  · exact (hagrees hp).owner.symm.trans (hsound.owner t (hsized hp))
  · rw [show v.bits i = m.bits i from (hagrees hp).bits.symm]
    exact hsound.valid t (hsized hp)
  · rw [show v.sizeClass i = m.sizeClass i from (hagrees hp).sizeClass.symm]
    have hb := (hmem hp b).mp hb
    exact hsound.lt_count (b := b) (by simp [HeapMem.slab, hb])
  · have hthread : m.block i b = .thread t := (h.hand i b).mpr ⟨c, hhand⟩
    exact SlabState.not_carved_unsized (x := m.slab i) (h.unsized.mp hp)
      (hm.carved (b := b) (by simp [hthread]))
  · have hthread : m.block i b = .thread t := (h.hand i b).mpr ⟨c, hhand⟩
    have hclass : m.sizeClass i = c := h.sizeClass _ hhand
    have hlt : b < count (m.sizeClass i) := hsound.lt_count (b := b) (by simp [HeapMem.slab, hthread])
    refine ⟨(hagrees hp).sizeClass.symm.trans hclass, by rwa [← hclass], ?_⟩
    rw [hmem hp, hthread]
    simp

theorem Own.counter (h : Own t v m) (hm : m.Sound) : v.Counter i (m.remote i) := by
  rintro ⟨b, c, hhand⟩
  have hthread : m.block i b = .thread t := (h.hand i b).mpr ⟨c, hhand⟩
  exact (hm.slab i).pos (hm.carved (b := b) (by simp [hthread]))

omit [DecidableEq T] in
theorem Own.away (h : Own t v m) (hunsized : m.place i ≠ .unsized t) (hsized : m.place i ≠ .sized t) :
    v.place i = .away := by
  cases hv : v.place i with
  | away => rfl
  | unsized => exact absurd (h.unsized.mp hv) hunsized
  | sized => exact absurd (h.sized.mp hv).1 hsized

theorem Own.head_global (h : Own t v m) (hm : m.Sound) : v.Head m.global := by
  intro i hi
  have hp := hm.place_head hi
  exact h.away (by simp [hp]) (by simp [hp])

/-! ### Blocks that go to the application and come back -/

variable {live : List (Offset B × B)}

section Blocks

variable {b b' : Bit} {p : BlockPlace T} {c : B} {o : Offset B} {k : ℕ}

theorem Sound.index_lt (hm : m.Sound) (hb : m.block i k ≠ .gone) : i.value < 2 ^ 32 := by
  have hfresh : m.place i ≠ .fresh := by
    rcases hm.carved hb with ⟨u, hp⟩ | hp
    · rw [show m.place i = .sized u from hp]
      simp
    · rw [show m.place i = .disowned from hp]
      simp
  rw [Ne, hm.fresh] at hfresh
  have := hm.bound
  omega

/-- The memory after a block has moved. -/
abbrev reblock (m : HeapMem T B) (i : Index B) (k : ℕ) (p : BlockPlace T)
    (live : List (Offset B × B)) : HeapMem T B :=
  { m with block := update m.block i (update (m.block i) k p), live := live }

omit [DecidableEq T] in
theorem slab_reblock :
    (m.reblock i k p live).slab i = { m.slab i with block := update (m.block i) k p } := by
  simp [slab]

omit [DecidableEq T] in
theorem slab_reblock_of_ne {j : Index B} (hj : j ≠ i) :
    (m.reblock i k p live).slab j = m.slab j := by
  simp [slab, hj]

omit [DecidableEq T] in
theorem private_setBlock : Private t m { m.setBlock o c p with live := live } := by
  unfold setBlock
  split <;> exact fun _ _ => ⟨rfl, rfl⟩

omit [DecidableEq T] in
/-- What the application holds after a block has moved. -/
theorem holds_reblock : (m.reblock i k p live).Holds o c ↔
    (∃ (j : Index B) (b' : Bit), o = .fromBlock c j b' ∧ m.sizeClass j = c ∧
      ¬ (j = i ∧ b'.toNat = k) ∧ m.block j b'.toNat = .application) ∨
    (p = .application ∧ m.sizeClass i = c ∧ ∃ b' : Bit, b'.toNat = k ∧ o = .fromBlock c i b') := by
  constructor
  · rintro ⟨j, b', ho, hc, hb'⟩
    by_cases hj : j = i
    · subst hj
      by_cases hk : b'.toNat = k
      · subst hk
        refine .inr ⟨?_, hc, b', rfl, ho⟩
        simpa using hb'
      · exact .inl ⟨j, b', ho, hc, fun h => hk h.2, by simpa [hk] using hb'⟩
    · exact .inl ⟨j, b', ho, hc, fun h => hj h.1, by simpa [hj] using hb'⟩
  · rintro (⟨j, b', ho, hc, hne, hb'⟩ | ⟨rfl, hc, b', rfl, ho⟩)
    · refine ⟨j, b', ho, hc, ?_⟩
      show update m.block i (update (m.block i) k p) j b'.toNat = .application
      by_cases hj : j = i
      · subst hj
        rw [update_self, update_of_ne fun hk => hne ⟨rfl, hk⟩]
        exact hb'
      · rw [update_of_ne hj]
        exact hb'
    · exact ⟨i, b', ho, hc, by simp⟩

variable [LawfulBracket B]

/-- A block can be found from its offset. -/
theorem Sound.find (hm : m.Sound) (hb : m.block i b.toNat ≠ .gone) (hc : m.sizeClass i = c) :
    (Offset.fromBlock c i b).intoIndex = some i ∧ (Offset.fromBlock c i b).intoBlock c = some b := by
  subst hc
  have hzero : isZero (m.sizeClass i) = false := (hm.slab i).isZero (hm.carved hb)
  have hlt : b.toNat < count (m.sizeClass i) := (hm.slab i).lt_count hb
  exact ⟨Offset.intoIndex_fromBlock (hm.index_lt hb) hzero hlt, Offset.intoBlock_fromBlock hzero hlt⟩

theorem Sound.setBlock_eq (hm : m.Sound) (hb : m.block i b.toNat ≠ .gone)
    (hc : m.sizeClass i = c) : m.setBlock (.fromBlock c i b) c p =
      { m with block := update m.block i (update (m.block i) b.toNat p) } := by
  obtain ⟨hindex, hblock⟩ := hm.find hb hc
  simp only [setBlock, hindex, hblock]

/-- The application holds a block under one offset only. -/
theorem Sound.holds_iff (hm : m.Sound) (hb : m.block i b.toNat ≠ .gone) (hc : m.sizeClass i = c) :
    m.Holds (.fromBlock c i b) c ↔ m.block i b.toNat = .application := by
  refine ⟨fun ⟨j, b', ho, hc', hb'⟩ => ?_, fun h => ⟨i, b, rfl, hc, h⟩⟩
  obtain ⟨hindex, hblock⟩ := hm.find hb hc
  obtain ⟨hindex', hblock'⟩ := hm.find (i := j) (b := b') (by simp [hb']) hc'
  rw [ho] at hindex hblock
  obtain rfl := Option.some.inj (hindex.symm.trans hindex')
  obtain rfl := Option.some.inj (hblock.symm.trans hblock')
  exact hb'

theorem Sound.reblock (hm : m.Sound)
    (hchange : (m.slab i).Change t { m.slab i with block := update (m.block i) k p })
    (hlive : ∀ o c, (o, c) ∈ live ↔ (m.reblock i k p live).Holds o c) (hnodup : live.Nodup) :
    (m.reblock i k p live).Sound ∧ Acts t m (m.reblock i k p live) := by
  have hall : ∀ j, (m.slab j).Change t ((m.reblock i k p live).slab j) := by
    intro j
    by_cases hj : j = i
    · subst hj
      rw [slab_reblock]
      exact hchange
    · rw [slab_reblock_of_ne hj]
      exact .same
  exact ⟨⟨fun j => (hall j).sound (hm.slab j), hm.fresh, hm.bound, hm.stack, hlive, hnodup⟩,
    ⟨hall, fun _ _ => rfl, fun _ _ => rfl, fun _ _ => rfl, .inl rfl⟩⟩

/-- A popped block is returned. -/
theorem after_hand (hm : m.Sound) (h : Own t v m) (hhand : v.hand = some ⟨i, b.toNat, c⟩) :
    After t m { m.setBlock (.fromBlock c i b) c .application with
      live := (.fromBlock c i b, c) :: m.live } (v.letGo i) := by
  have hthread := h.thread hhand
  have hne : m.block i b.toNat ≠ .gone := by simp [hthread]
  have hc : m.sizeClass i = c := h.sizeClass _ hhand
  rw [hm.setBlock_eq hne hc]
  have hnotin : (Offset.fromBlock c i b, c) ∉ m.live := by
    rw [hm.live, hm.holds_iff hne hc, hthread]
    simp
  have hlive : ∀ o c', (o, c') ∈ (Offset.fromBlock c i b, c) :: m.live ↔ (m.reblock i b.toNat
      .application ((.fromBlock c i b, c) :: m.live)).Holds o c' := by
    intro o c'
    rw [holds_reblock, List.mem_cons, hm.live]
    constructor
    · rintro (heq | ⟨j, b', ho, hc', hb'⟩)
      · cases heq
        exact .inr ⟨rfl, hc, b, rfl, rfl⟩
      · refine .inl ⟨j, b', ho, hc', ?_, hb'⟩
        rintro ⟨rfl, hk⟩
        rw [hk, hthread] at hb'
        cases hb'
    · rintro (⟨j, b', ho, hc', -, hb'⟩ | ⟨-, hc', b', hk, ho⟩)
      · exact .inr ⟨j, b', ho, hc', hb'⟩
      · obtain rfl := Bit.toNat_inj hk
        obtain rfl := hc.symm.trans hc'
        exact .inl (by rw [ho])
  obtain ⟨hsound, hacts⟩ := hm.reblock (t := t) (.hand hthread) hlive
    (List.nodup_cons.mpr ⟨hnotin, hm.nodup⟩)
  refine ⟨hsound, hacts, ⟨h.head, h.len, fun j => ?_, fun j k => iff_of_false
    (h.update_ne hhand (by simp) j k) (by simp [View.letGo]), by simp [View.letGo], h.seen, h.link⟩⟩
  · by_cases hj : j = i
    · subst hj
      have hcarved := hm.carved hne
      have hunsized : m.place j ≠ .unsized t := fun hp =>
        SlabState.not_carved_unsized (x := m.slab j) hp hcarved
      cases hp : v.place j with
      | unsized => exact absurd (h.unsized.mp hp) hunsized
      | away =>
        exact .of_away (by simp [View.hold, View.letGo, hp]) hunsized fun hpin =>
          h.not_sized hhand hp hpin.1
      | sized =>
        have hpin := h.sized.mp hp
        have hagrees := h.agrees (i := j) (by simp [hp])
        have hmem := h.mem_bits hm hp
        by_cases hempty : (v.bits j).elems = ∅
        · refine .of_away (by simp [View.hold, View.letGo, hp, hempty]) hunsized ?_
          rintro ⟨-, k, hk⟩
          have hk : update m.block j (update (m.block j) b.toNat .application) j k = .slab ∨
              update m.block j (update (m.block j) b.toNat .application) j k = .thread t := hk
          rw [update_self] at hk
          by_cases hkb : k = b.toNat
          · subst hkb
            simp at hk
          · rw [update_of_ne hkb] at hk
            rcases hk with hk | hk
            · rw [← hmem, hempty] at hk
              simp at hk
            · exact hkb (h.only hhand hk).2
        · obtain ⟨k, hk⟩ := Finset.nonempty_iff_ne_empty.mpr hempty
          refine .of_sized (by simp [View.hold, View.letGo, hp, hempty]) ⟨hpin.1, k, .inl ?_⟩
            ⟨hagrees.next, hagrees.owner, hagrees.sizeClass, hagrees.bits⟩
          have hk := (hmem k).mp hk
          have hkb : k ≠ b.toNat := by
            rintro rfl
            rw [hthread] at hk
            cases hk
          show update m.block j (update (m.block j) b.toNat .application) j k = .slab
          rw [update_self, update_of_ne hkb]
          exact hk
    · rw [show (v.letGo i).hold j = v.hold j by simp [View.hold, View.letGo, hj]]
      rw [show (m.reblock i b.toNat .application ((.fromBlock c i b, c) :: m.live)).slab j = m.slab j
        from slab_reblock_of_ne hj]
      exact h.slab j

end Blocks

/-! ### The accesses -/

variable [DecidableEq B]

/-- How threads share a heap. -/
def allocating (cfg : Config) :
    Protocol (system cfg : System T (HeapAct T B) (HeapMem T B) Panic) Fresh :=
  ofSteps _ _ Sound (fun u m m' => Acts u m m' ∧ Private u m m')
    (fun t β act m => ∀ e, handle cfg t β act m = .error e → cfg.Stops e) Rest
    (fun u m => ⟨.refl u m, fun _ _ => ⟨rfl, rfl⟩⟩)

theorem stable_own : (allocating cfg).Stable t (Own t v) :=
  stable_ofSteps fun _ _ _ hu hm _ hguar h => h.acts hm hu hguar.1

theorem stable_log {r : Option (HeapState B)} :
    (allocating cfg).Stable t fun m : HeapMem T B => m.log t = r :=
  stable_ofSteps fun _ _ _ hu _ _ hguar h => (hguar.2 t hu.symm).1.trans h

section Access

variable [LawfulBracket B] {act : Access T B β} {Q : β → View T B → Prop} {b : β}

omit [LawfulBracket B] in
theorem after_loadHead {s : StackId T B} {Q : Option (Index B) → View T B → Prop}
    (hpre : v.pre cfg t _ (.loadHead s) Q) (hm : m.Sound) (h : Own t v m) :
    ∃ v', Q (m.head s) v' ∧ After t m m v' := by
  obtain ⟨k, rfl, hQ⟩ := hpre
  rw [h.head]
  exact ⟨v, hQ, .refl hm h⟩

theorem after_writeHead {s : StackId T B} {x : Option (Index B)} {Q : Unit → View T B → Prop}
    (hpre : v.pre cfg t _ (.storeHead s x) Q) (hm : m.Sound) (h : Own t v m)
    (ha : handle cfg t _ (.heap (.storeHead s x)) m = .ok ((), m')) :
    ∃ v', Q () v' ∧ After t m m' v' := by
  cases s with
  | sized u c =>
    obtain ⟨rfl, hQ⟩ := hpre
    obtain ⟨-, rfl⟩ := ok_inj ha
    exact ⟨_, hQ, after_storeHead hm h (some c) x⟩
  | unsized u =>
    cases x with
    | none =>
      obtain ⟨rfl, hQ⟩ := hpre
      obtain ⟨-, rfl⟩ := ok_inj ha
      exact ⟨_, hQ, after_storeHead hm h none none⟩
    | some i =>
      obtain ⟨rfl, ⟨hp, hQ⟩ | ⟨hp, helems, hQ⟩⟩ := hpre
      · have hplace : m.place i = .unsized u := h.unsized.mp hp
        simp only [handle, Mem.handle, note, hplace, reduceCtorEq, if_false] at ha
        obtain ⟨-, rfl⟩ := ok_inj ha
        exact ⟨_, hQ, after_storeHead hm h none (some i)⟩
      · have hplace : m.place i = .sized u := (h.sized.mp hp).1
        simp only [handle, Mem.handle, note, hplace, if_true] at ha
        obtain ⟨-, rfl⟩ := ok_inj ha
        exact ⟨_, hQ, after_retire hm h hp helems⟩

theorem after_writeOwner {o : Option T} {Q : Unit → View T B → Prop}
    (hpre : v.pre cfg t _ (.storeOwner i o) Q) (hm : m.Sound) (h : Own t v m)
    (ha : handle cfg t _ (.heap (.storeOwner i o)) m = .ok ((), m')) :
    ∃ v', Q () v' ∧ After t m m' v' := by
  rcases hpre with ⟨hp, hQ⟩ | ⟨hp, rfl, helems, hQ⟩
  · have hplace : m.place i = .unsized t := h.unsized.mp hp
    refine ⟨_, hQ, ?_⟩
    cases o with
    | none =>
      simp only [handle, Mem.handle, note, hplace, reduceCtorEq, if_false] at ha
      obtain ⟨-, rfl⟩ := ok_inj ha
      exact after_storeOwner hm h hp
    | some u =>
      obtain ⟨-, rfl⟩ := ok_inj ha
      exact after_storeOwner hm h hp
  · have hplace : m.place i = .sized t := (h.sized.mp hp).1
    simp only [handle, Mem.handle, note, hplace, if_true] at ha
    obtain ⟨-, rfl⟩ := ok_inj ha
    exact ⟨_, hQ, after_disown hm h hp helems⟩

theorem after_writeBits {s : BitSet (rows B)} {Q : Unit → View T B → Prop}
    (hpre : v.pre cfg t _ (.storeBits i s) Q) (hm : m.Sound) (h : Own t v m) :
    ∃ v', Q () v' ∧ After t m (({ m with bits := update m.bits i s } : HeapMem T B).marks t i s) v' := by
  rcases hpre with ⟨hp, hQ⟩ | ⟨hp, hvalid, ⟨b, hb, hhand, helems, hQ⟩ | ⟨b, c, hhand, helems, hQ⟩⟩
  · have hplace : m.place i = .unsized t := h.unsized.mp hp
    rw [marks, if_neg (by simp [hplace])]
    exact ⟨_, hQ, after_fill hm h hp⟩
  · exact ⟨_, hQ, after_take hm h hp hb hhand hvalid helems⟩
  · exact ⟨_, hQ, after_put hm h hp hhand hvalid helems⟩

variable {r : Option (Word T (Option (Index B)))} {old new : Word T (Option (Index B))}

theorem after_casGlobal {Q : Option (Word T (Option (Index B))) → View T B → Prop}
    (hpre : v.pre cfg t _ (.casWord .global old new) Q) (hm : m.Sound) (h : Own t v m)
    (hfresh : m.global = old → ∀ u, u ≠ t → m.seen u ≠ some new)
    (ha : handle cfg t _ (.heap (.casWord .global old new)) m = .ok (r, m')) :
    ∃ v', Q r v' ∧ After t m m' v' := by
  obtain ⟨hfail, hok⟩ := hpre
  by_cases hw : m.global = old
  · subst hw
    have heq : handle cfg t _ (.heap (.casWord .global m.global new)) m =
        .ok (none, ({ m with global := new } : HeapMem T B).swaps cfg t m.global.inner new.inner) := by
      simp [handle, Mem.handle, note, Heap.word, Heap.setWord]
    rw [heq] at ha
    obtain ⟨rfl, rfl⟩ := ok_inj ha
    rcases hok with ⟨batch, hpush, hQ⟩ | ⟨i, hpop, hQ⟩
    · exact ⟨_, hQ, after_push cfg hm h hpush (hfresh rfl)⟩
    · have haway : ∀ j ∈ ({i} : Set (Index B)), v.place j = .away := by
        rintro j rfl
        exact h.head_global hm j hpop.inner
      exact ⟨_, hQ _ (gains_gain haway), after_pop cfg hm h hpop (hfresh rfl)⟩
  · have heq : handle cfg t _ (.heap (.casWord .global old new)) m =
        .ok (some m.global, m.reads t m.global) := by
      simp [handle, Mem.handle, note, Heap.word, hw]
    rw [heq] at ha
    obtain ⟨rfl, rfl⟩ := ok_inj ha
    exact ⟨_, hfail m.global (h.head_global hm), after_reads hm h⟩

theorem after_casBump {Q : Option (Word T (Option (Index B))) → View T B → Prop}
    (hpre : v.pre cfg t _ (.casWord .bump old new) Q) (hm : m.Sound) (h : Own t v m)
    (ha : handle cfg t _ (.heap (.casWord .bump old new)) m = .ok (r, m')) :
    ∃ v', Q r v' ∧ After t m m' v' := by
  obtain ⟨hfail, hle, hlt, hok⟩ := hpre
  by_cases hw : m.bump = old
  · subst hw
    have heq : handle cfg t _ (.heap (.casWord .bump m.bump new)) m =
        .ok (none, ({ m with bump := new } : HeapMem T B).bumps t m.bump.inner new.inner) := by
      simp [handle, Mem.handle, note, Heap.word, Heap.setWord]
    rw [heq] at ha
    obtain ⟨rfl, rfl⟩ := ok_inj ha
    have haway : ∀ i ∈ {i : Index B | m.bumpIndex ≤ i.value ∧
        i.value < (new.inner.getD .min).value}, v.place i = .away := by
      intro i hi
      have hp := (hm.fresh i).mpr hi.1
      exact h.away (by simp [hp]) (by simp [hp])
    exact ⟨_, hok _ (gains_gain haway), after_bump hm h hle hlt⟩
  · have heq : handle cfg t _ (.heap (.casWord .bump old new)) m = .ok (some m.bump, m) := by
      simp [handle, Mem.handle, note, Heap.word, hw]
    rw [heq] at ha
    obtain ⟨rfl, rfl⟩ := ok_inj ha
    exact ⟨_, hfail m.bump, .refl hm h⟩

theorem after_casRemote {old new : Word T Remote} {r : Option (Word T Remote)}
    {Q : Option (Word T Remote) → View T B → Prop}
    (hpre : v.pre cfg t _ (.casWord (.remote i) old new) Q) (hm : m.Sound) (h : Own t v m)
    (ha : handle cfg t _ (.heap (.casWord (.remote i) old new)) m = .ok (r, m')) :
    ∃ v', Q r v' ∧ After t m m' v' := by
  obtain ⟨hfail, hp, ⟨b, c, hhand⟩, hnew, hmore, hlast⟩ := hpre
  by_cases hw : m.remote i = old
  · subst hw
    have heq : handle cfg t _ (.heap (.casWord (.remote i) (m.remote i) new)) m =
        .ok (none, ({ m with remote := update m.remote i new } : HeapMem T B).decrements t i
          new.inner) := by
      simp [handle, Mem.handle, note, Heap.word, Heap.setWord]
    rw [heq] at ha
    obtain ⟨rfl, rfl⟩ := ok_inj ha
    by_cases hzero : new.inner.free = 0
    · have haway : ∀ j ∈ ({i} : Set (Index B)), v.place j = .away := by
        rintro j rfl
        exact hp
      exact ⟨_, hlast hzero _ (gains_gain haway), after_claim hm h hhand hzero (by omega)⟩
    · exact ⟨_, hmore hzero, after_decrement hm h hp hhand hnew hzero⟩
  · have heq : handle cfg t _ (.heap (.casWord (.remote i) old new)) m =
        .ok (some (m.remote i), m) := by
      simp [handle, Mem.handle, note, Heap.word, hw]
    rw [heq] at ha
    obtain ⟨rfl, rfl⟩ := ok_inj ha
    exact ⟨_, hfail (m.remote i) (h.counter hm), .refl hm h⟩

/-- An access that meets what it needs of the view. -/
theorem after_pre (hpre : v.pre cfg t β act Q) (hm : m.Sound) (h : Own t v m)
    (hfresh : Fresh t β (.heap act) m) (ha : handle cfg t β (.heap act) m = .ok (b, m')) :
    ∃ v', Q b v' ∧ After t m m' v' := by
  -- what the memory has besides slabs, stacks and the words
  have helse : ∀ (help : T → T → Version) (log : T → Option (HeapState B)),
      After t m { m with help := help, log := log } v :=
    fun help log => .same hm h (fun _ => rfl) rfl ⟨rfl, rfl, rfl, rfl, rfl⟩
  cases act with
  | loadNext i =>
    obtain ⟨rfl, rfl⟩ := ok_inj ha
    by_cases hp : v.place i = .away
    · exact ⟨_, hpre.2 hp _, after_loadLink hm h⟩
    · have hnext : m.next i = v.next i := (h.agrees hp).next
      rw [hnext]
      exact ⟨v, hpre.1 hp, .refl hm h⟩
  | storeNext i x =>
    obtain ⟨rfl, rfl⟩ := ok_inj ha
    exact ⟨_, hpre.2, after_storeNext hm h hpre.1⟩
  | loadOwner i =>
    obtain ⟨rfl, rfl⟩ := ok_inj ha
    by_cases hp : v.place i = .away
    · refine ⟨v, hpre.2 hp _ ?_, .refl hm h⟩
      rintro ⟨b, c, hhand⟩
      exact h.not_owner hm hp hhand
    · have howner : m.owner i = v.owner i := (h.agrees hp).owner
      rw [howner]
      exact ⟨v, hpre.1 hp (h.known hm), .refl hm h⟩
  | storeOwner i o => exact after_writeOwner hpre hm h ha
  | loadClass i =>
    obtain ⟨rfl, rfl⟩ := ok_inj ha
    by_cases hp : v.place i = .away
    · exact ⟨v, hpre.2 hp _, .refl hm h⟩
    · have hclass : m.sizeClass i = v.sizeClass i := (h.agrees hp).sizeClass
      rw [hclass]
      exact ⟨v, hpre.1 hp (h.known hm), .refl hm h⟩
  | storeClass i c =>
    obtain ⟨rfl, rfl⟩ := ok_inj ha
    exact ⟨_, hpre.2, after_storeClass hm h hpre.1⟩
  | loadBits i =>
    obtain ⟨rfl, rfl⟩ := ok_inj ha
    have hbits : m.bits i = v.bits i := (h.agrees hpre.1).bits
    rw [hbits]
    exact ⟨v, hpre.2 (h.known hm), .refl hm h⟩
  | storeBits i s =>
    obtain ⟨rfl, rfl⟩ := ok_inj ha
    exact after_writeBits hpre hm h
  | flushCxl i =>
    obtain ⟨rfl, rfl⟩ := ok_inj ha
    exact ⟨v, hpre, .refl hm h⟩
  | loadHead s =>
    obtain ⟨rfl, rfl⟩ := ok_inj ha
    exact after_loadHead hpre hm h
  | storeHead s x => exact after_writeHead hpre hm h ha
  | loadLen s =>
    obtain ⟨k, rfl, hQ⟩ := hpre
    obtain ⟨rfl, rfl⟩ := ok_inj ha
    rw [h.len]
    exact ⟨v, hQ, .refl hm h⟩
  | storeLen s n =>
    obtain ⟨k, rfl, hQ⟩ := hpre
    obtain ⟨rfl, rfl⟩ := ok_inj ha
    exact ⟨_, hQ, after_storeLen hm h k n⟩
  | loadWord o =>
    cases o with
    | global =>
      obtain ⟨rfl, rfl⟩ := ok_inj ha
      exact ⟨_, hpre m.global (h.head_global hm), after_reads hm h⟩
    | bump =>
      obtain ⟨rfl, rfl⟩ := ok_inj ha
      exact ⟨v, hpre m.bump, .refl hm h⟩
    | remote i =>
      obtain ⟨rfl, rfl⟩ := ok_inj ha
      exact ⟨v, hpre (m.remote i) (h.counter hm), .refl hm h⟩
  | storeWord o w =>
    cases o with
    | global => exact hpre.elim
    | bump => exact hpre.elim
    | remote i =>
      obtain ⟨hp, hc, howner, hvalid, helems, hw, hQ⟩ := hpre
      obtain ⟨rfl, rfl⟩ := ok_inj ha
      exact ⟨_, hQ, after_carve hm h hp hc howner hvalid helems hw⟩
  | casWord o old new =>
    cases o with
    | global => exact after_casGlobal hpre hm h hfresh ha
    | bump => exact after_casBump hpre hm h ha
    | remote i => exact after_casRemote hpre hm h ha
  | loadHelp u u' =>
    obtain ⟨rfl, rfl⟩ := ok_inj ha
    exact ⟨v, hpre _, .refl hm h⟩
  | storeHelp u u' n =>
    obtain ⟨rfl, rfl⟩ := ok_inj ha
    exact ⟨v, hpre.2, helse _ _⟩
  | loadLog u =>
    obtain ⟨rfl, rfl⟩ := ok_inj ha
    exact ⟨v, hpre _, .refl hm h⟩
  | storeLog u r =>
    obtain ⟨rfl, rfl⟩ := ok_inj ha
    exact ⟨v, hpre.2, helse _ _⟩
  | check p e =>
    simp only [handle, Mem.handle] at ha
    split_ifs at ha
    obtain ⟨rfl, rfl⟩ := ok_inj ha
    exact ⟨v, hpre.2, .refl hm h⟩
  | scanHelp p =>
    obtain ⟨rfl, rfl⟩ := ok_inj ha
    exact ⟨v, hpre _, .refl hm h⟩
  | record u e =>
    obtain ⟨rfl, rfl⟩ := ok_inj ha
    exact ⟨v, hpre, .refl hm h⟩
  | panic e => cases ha

end Access

/-! ### What a thread may do -/

omit [DecidableEq T] in
theorem monotone_preAct : (View.preAct cfg t : Local (HeapAct T B) (View T B)).Monotone := by
  intro β act Q Q' v hQ h
  cases act with
  | hand offset c =>
    obtain ⟨i, b, hhand, ho, h⟩ := h
    exact ⟨i, b, hhand, ho, hQ _ _ h⟩
  | heap act =>
    cases act with
    | loadNext i => exact ⟨fun hp => hQ _ _ (h.1 hp), fun hp x => hQ _ _ (h.2 hp x)⟩
    | storeNext i x => exact ⟨h.1, hQ _ _ h.2⟩
    | loadOwner i => exact ⟨fun hp hk => hQ _ _ (h.1 hp hk), fun hp o ho => hQ _ _ (h.2 hp o ho)⟩
    | storeOwner i o =>
      rcases h with ⟨hp, h⟩ | ⟨hp, ho, he, h⟩
      · exact .inl ⟨hp, hQ _ _ h⟩
      · exact .inr ⟨hp, ho, he, hQ _ _ h⟩
    | loadClass i => exact ⟨fun hp hk => hQ _ _ (h.1 hp hk), fun hp c => hQ _ _ (h.2 hp c)⟩
    | storeClass i c => exact ⟨h.1, hQ _ _ h.2⟩
    | loadBits i => exact ⟨h.1, fun hk => hQ _ _ (h.2 hk)⟩
    | storeBits i s =>
      rcases h with ⟨hp, h⟩ | ⟨hp, hs, ⟨b, hb, hh, he, h⟩ | ⟨b, c, hh, he, h⟩⟩
      · exact .inl ⟨hp, hQ _ _ h⟩
      · exact .inr ⟨hp, hs, .inl ⟨b, hb, hh, he, hQ _ _ h⟩⟩
      · exact .inr ⟨hp, hs, .inr ⟨b, c, hh, he, hQ _ _ h⟩⟩
    | flushCxl i => exact hQ _ _ h
    | loadHead s =>
      obtain ⟨k, hs, h⟩ := h
      exact ⟨k, hs, hQ _ _ h⟩
    | storeHead s x =>
      cases s with
      | sized u c => exact ⟨h.1, hQ _ _ h.2⟩
      | unsized u =>
        cases x with
        | none => exact ⟨h.1, hQ _ _ h.2⟩
        | some i =>
          obtain ⟨hu, ⟨hp, h⟩ | ⟨hp, he, h⟩⟩ := h
          · exact ⟨hu, .inl ⟨hp, hQ _ _ h⟩⟩
          · exact ⟨hu, .inr ⟨hp, he, hQ _ _ h⟩⟩
    | loadLen s =>
      obtain ⟨k, hs, h⟩ := h
      exact ⟨k, hs, hQ _ _ h⟩
    | storeLen s n =>
      obtain ⟨k, hs, h⟩ := h
      exact ⟨k, hs, hQ _ _ h⟩
    | loadWord o =>
      cases o with
      | global => exact fun w hw => hQ _ _ (h w hw)
      | bump => exact fun w => hQ _ _ (h w)
      | remote i => exact fun w hw => hQ _ _ (h w hw)
    | storeWord o w =>
      cases o with
      | global => exact h
      | bump => exact h
      | remote i =>
        obtain ⟨hp, hc, ho, hv, he, hw, h⟩ := h
        exact ⟨hp, hc, ho, hv, he, hw, hQ _ _ h⟩
    | casWord o old new =>
      cases o with
      | global =>
        obtain ⟨hfail, ⟨batch, hpush, h⟩ | ⟨i, hpop, h⟩⟩ := h
        · exact ⟨fun w hw => hQ _ _ (hfail w hw), .inl ⟨batch, hpush, hQ _ _ h⟩⟩
        · exact ⟨fun w hw => hQ _ _ (hfail w hw),
            .inr ⟨i, hpop, fun v' hv' => hQ _ _ (h v' hv')⟩⟩
      | bump =>
        obtain ⟨hfail, hle, hlt, h⟩ := h
        exact ⟨fun w => hQ _ _ (hfail w), hle, hlt, fun v' hv' => hQ _ _ (h v' hv')⟩
      | remote i =>
        obtain ⟨hfail, hp, hh, hn, hmore, hlast⟩ := h
        exact ⟨fun w hw => hQ _ _ (hfail w hw), hp, hh, hn, fun hz => hQ _ _ (hmore hz),
          fun hz v' hv' => hQ _ _ (hlast hz v' hv')⟩
    | loadHelp u u' => exact fun n => hQ _ _ (h n)
    | storeHelp u u' n => exact ⟨h.1, hQ _ _ h.2⟩
    | loadLog u => exact fun r => hQ _ _ (h r)
    | storeLog u r => exact ⟨h.1, hQ _ _ h.2⟩
    | check p e => exact ⟨h.1, hQ _ _ h.2⟩
    | scanHelp p => exact fun r => hQ _ _ (h r)
    | record u e => exact hQ _ _ h
    | panic e => exact h

/-- The accesses that can fail. -/
theorem stops_of_error {act : HeapAct T B β} {Q : β → View T B → Prop}
    (hpre : View.preAct cfg t β act Q v) {e : Panic} (he : handle cfg t β act m = .error e) :
    cfg.Stops e := by
  cases act with
  | hand offset c => cases he
  | heap act =>
    cases act with
    | panic e' =>
      cases he
      exact hpre
    | check p e' =>
      simp only [handle, Mem.handle] at he
      split_ifs at he
      cases he
      exact hpre.1
    | casWord o old new =>
      simp only [handle, Mem.handle] at he
      split_ifs at he
    | _ => cases he

omit [DecidableEq B] in
/-- What is noted is no part of the memory. -/
theorem toMem_note {act : Access T B β} {b : β} : (m.note cfg t act b).toMem = m.toMem := by
  cases act with
  | storeBits i s =>
    show (m.marks t i s).toMem = _
    unfold marks
    split_ifs <;> rfl
  | storeOwner i o =>
    cases o with
    | some u => rfl
    | none =>
      simp only [note]
      split_ifs <;> rfl
  | storeHead s x =>
    rcases s with u | ⟨u, c⟩ <;> rcases x with _ | i <;> try rfl
    simp only [note]
    split_ifs <;> rfl
  | loadWord o => cases o <;> rfl
  | storeWord o w => cases o <;> rfl
  | casWord o old new =>
    cases o <;> cases b <;> try rfl
    show (m.swaps cfg t old.inner new.inner).toMem = _
    unfold swaps
    split_ifs <;> rfl
  | _ => rfl

/-- What becomes of the records and of the help array. -/
theorem logged_handle {act : Access T B β} {b : β}
    (h : handle cfg t β (.heap act) m = .ok (b, m')) (u : T) :
    m'.log u = act.logged u (m.log u) ∧ m'.help u = act.helped u (m.help u) := by
  rw [handle] at h
  split at h
  · rename_i hm
    obtain ⟨rfl, rfl⟩ := ok_inj h
    rw [toMem_note]
    exact Mem.logged_handle hm u
  · cases h

theorem private_of_pre {act : HeapAct T B β} {Q : β → View T B → Prop} {b : β}
    (hpre : View.preAct cfg t β act Q v) (h : handle cfg t β act m = .ok (b, m')) :
    Private t m m' := by
  cases act with
  | hand offset c =>
    obtain ⟨-, rfl⟩ := ok_inj h
    exact private_setBlock
  | heap act =>
    intro u hu
    rw [(logged_handle h u).1, (logged_handle h u).2]
    cases act with
    | storeLog v r => exact ⟨if_neg (hpre.1.symm ▸ hu.symm), rfl⟩
    | storeHelp v j x => exact ⟨rfl, if_neg (hpre.1.symm ▸ hu.symm)⟩
    | _ => exact ⟨rfl, rfl⟩

variable [LawfulBracket B]

/-- An access that meets what it needs of the view keeps the protocol. -/
theorem does_act {act : HeapAct T B β} {Q : β → View T B → Prop}
    (hpre : View.preAct cfg t β act Q v) :
    (allocating cfg).Does t (Own t v) act fun b m => ∃ v', Q b v' ∧ Own t v' m := by
  refine fun m hm h => ⟨fun e he => ?_, fun hfresh b m' ha => ?_⟩
  · exact stops_of_error hpre he
  obtain ⟨v', hQ, hafter⟩ : ∃ v', Q b v' ∧ After t m m' v' := by
    cases act with
    | heap act => exact after_pre hpre hm h hfresh ha
    | hand offset c =>
      obtain ⟨i, k, hhand, rfl, hQ⟩ := hpre
      obtain ⟨-, rfl⟩ := ok_inj ha
      exact ⟨_, hQ, after_hand hm h hhand⟩
  exact ⟨hafter.sound, ⟨hafter.acts, private_of_pre hpre ha⟩, v', hQ, hafter.own⟩

/-- A thread that can be followed with its view keeps the protocol. -/
theorem keeps_of_follow {p : Prog (HeapAct T B) α} {Q : α → View T B → Prop}
    (hp : p.follow (View.preAct cfg t) Q v) (hm : Own t v m) :
    (allocating cfg).Keeps t p (fun a m => ∃ v', Q a v' ∧ Own t v' m) m :=
  Protocol.keeps_of_follow (fun _ => stable_own) (fun _ _ _ _ => does_act) hp hm

end HeapMem

end Cxlalloc
