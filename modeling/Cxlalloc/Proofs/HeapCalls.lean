/-
The slab heap under every interleaving: whole runs.

A call that allocates pops a block and hands it to the application; a call that frees takes it
back first.  Both leave the thread at rest, with its stacks in order and nothing in its hands.  So
in every state that threads can reach from a heap of zero bits, in steps of one access each:

  * what the application holds does not overlap (`live_disjoint`);
  * if no call is under way, no slab is on two stacks, and every slab that `bump` has handed out
    is on one, or has a block with the application (`no_slab_lost`);
  * a thread that has crashed is left alone by the others (`leaves_of_run`).

The one assumption on the order of steps is `Fresh`, which the 16-bit versions of the global stack
are there for.
-/
import Cxlalloc.Proofs.HeapFollow

namespace Cxlalloc

open Lib
open Lib.Prog Lib.Protocol
open Cxlalloc.Bracket
open Relation
open Function

/-! ### What a thread does in a call -/

namespace View

variable {T B : Type} [Bracket B] {t : T} {cfg : Config} {v v' : View T B} {i : Index B}
  {L : Option B → List (Index B)} {b : Bit} {c : B}

/-- A slab whose last free block is handed out is on no stack. -/
theorem Good.letGo {h : Option (Hand B)} (hv : v.Good t h) : (v.letGo i).Good t none := by
  obtain ⟨⟨L, hok⟩, -⟩ := hv
  refine ⟨⟨L, ?_⟩, rfl⟩
  unfold View.letGo
  split_ifs with hempty
  · exact (hok.leave hempty.1 hempty.2).forget none v.seen v.link
  · rw [update_eq_self]
    exact hok.forget none v.seen v.link

/-- A slab without free blocks that the thread has carved. -/
theorem Ok.hold (hok : v.Ok t L) (haway : v.place i = .away) (hi : v'.place i = .sized)
    (hempty : (v'.bits i).elems = ∅) (hother : ∀ j, j ≠ i → v'.hold j = v.hold j)
    (hhead : v'.head = v.head) (hlen : v'.len = v.len) : v'.Ok t L := by
  have hout : ∀ k, i ∉ L k := hok.notMem (by simp [haway]) fun hp => by simp [haway] at hp
  refine ⟨?_, by rw [hlen]; exact hok.len, fun j => ?_, fun c j => ?_, fun j hj => ?_⟩
  · rw [hhead]
    refine hok.chains.frame fun k j hj => next_eq_of_hold (hother j ?_)
    rintro rfl
    exact hout k hj
  · by_cases hj : j = i
    · subst hj
      exact iff_of_false (hout none) (by simp [hi])
    · rw [hok.unsized, show v'.place j = v.place j from congrArg Holding.place (hother j hj)]
  · by_cases hj : j = i
    · subst hj
      exact iff_of_false (hout _) (by simp [hempty])
    · rw [hok.sized, show v'.place j = v.place j from congrArg Holding.place (hother j hj),
        show v'.sizeClass j = v.sizeClass j from congrArg Holding.sizeClass (hother j hj),
        show v'.bits j = v.bits j from congrArg Holding.bits (hother j hj)]
  · have hne : j ≠ i := by
      rintro rfl
      rw [hi] at hj
      cases hj
    rw [show v'.owner j = v.owner j from congrArg Holding.owner (hother j hne)]
    exact hok.owner j ((congrArg Holding.place (hother j hne)).symm.trans hj)

variable [DecidableEq T] [DecidableEq B] [LawfulBracket B]

/-- An allocation leaves a block in the thread's hands. -/
theorem follow_allocateBlock {Q : Option (Offset B) → View T B → Prop}
    (hbatch : cfg.batchBump % 2 ^ 32 ≠ 0) (hv : v.Good t none)
    (hnone : ∀ v', v'.Good t none → Q none v')
    (hsome : ∀ i (b : Bit) v', v'.Good t (some ⟨i, b.toNat, c⟩) → Q (some (.fromBlock c i b)) v') :
    (Heap.allocateBlock cfg t c : HeapCode T B _).follow (pre cfg t) Q v := by
  unfold Heap.allocateBlock
  rw [follow_bind]
  refine follow_peekBlock hbatch hv hnone fun v' i hv' hi => ?_
  show (Heap.pop cfg t c i (v'.bits i).peekUnchecked >>= _).follow _ _ _
  rw [follow_bind]
  exact follow_popBlock hv' hi fun v'' hv'' => hsome i _ v'' hv''

theorem follow_code_allocate (hbatch : cfg.batchBump % 2 ^ 32 ≠ 0) (hv : v.Good t none) :
    ((HeapMem.system (T := T) cfg).code t (.allocate c)).follow (preAct cfg t)
      (fun _ v' => v'.Good t none) v := by
  show (Prog.hoist _ (Heap.allocateBlock cfg t c) >>= _).follow _ _ _
  rw [follow_bind, follow_hoist]
  refine follow_allocateBlock hbatch hv (fun v' hv' => hv') fun i b v' hv' => ?_
  exact ⟨i, b, hv'.2, rfl, hv'.letGo⟩

theorem follow_code_free {offset : Offset B} (hv : v.Good t (some ⟨i, b.toNat, c⟩))
    (hindex : offset.intoIndex = some i) (hblock : offset.intoBlock c = some b) :
    ((HeapMem.system (T := T) cfg).code t (.free offset c)).follow (preAct cfg t)
      (fun _ v' => v'.Good t none) v := by
  show (Prog.hoist _ (Heap.free cfg t offset)).follow _ _ _
  rw [follow_hoist]
  exact follow_free hv hindex hblock fun v' hv' => hv'

end View

/-! ### What a call begins with -/

namespace HeapMem

variable {T B : Type} [Bracket B] [DecidableEq T] {m : HeapMem T B} {t : T} {i : Index B}
  {v v' : View T B} {b : Bit} {c : B} {cfg : Config} {live : List (Offset B × B)}

omit [DecidableEq T] in
/-- The thread has taken a block from the application. -/
theorem Own.call (h : Own t v m) (hhand : v.hand = none) (hc : m.sizeClass i = c)
    (hhand' : v'.hand = some ⟨i, b.toNat, c⟩) (hhead : v'.head = v.head) (hlen : v'.len = v.len)
    (hread : v'.seen = v.seen ∧ v'.link = v.link)
    (hi : Sees t (v'.hold i) ((m.reblock i b.toNat (.thread t) live).slab i))
    (hother : ∀ j, j ≠ i → v'.hold j = v.hold j) :
    Own t v' (m.reblock i b.toNat (.thread t) live) where
  head k := by
    rw [hhead]
    exact h.head k
  len k := by
    rw [hlen]
    exact h.len k
  slab j := by
    by_cases hj : j = i
    · subst hj
      exact hi
    · rw [slab_reblock_of_ne hj, hother j hj]
      exact h.slab j
  hand j k := by
    have hnone := h.not_thread hhand j k
    rw [hhand']
    show update m.block i (update (m.block i) b.toNat (.thread t)) j k = .thread t ↔ _
    by_cases hj : j = i
    · subst hj
      by_cases hk : k = b.toNat
      · subst hk
        simp
      · simp [hk, Ne.symm hk, hnone]
    · simp [hj, Ne.symm hj, hnone]
  sizeClass x hx := by
    rw [hhand'] at hx
    obtain rfl := Option.some.inj hx
    exact hc
  seen := by
    rw [hread.1]
    exact h.seen
  link := by
    rw [hread.1, hread.2]
    exact h.link

variable [LawfulBracket B]

/-- What the application holds without one block. -/
theorem Sound.mem_erase [DecidableEq B] (hm : m.Sound) (happ : m.block i b.toNat = .application)
    (hc : m.sizeClass i = c) {o : Offset B} {c' : B} :
    (o, c') ∈ m.live.erase (.fromBlock c i b, c) ↔
      (m.reblock i b.toNat (.thread t) live).Holds o c' := by
  have hne : m.block i b.toNat ≠ .gone := by simp [happ]
  rw [hm.nodup.mem_erase_iff, holds_reblock, hm.live]
  constructor
  · rintro ⟨hdiff, j, b', ho, hc', hb'⟩
    refine .inl ⟨j, b', ho, hc', ?_, hb'⟩
    rintro ⟨rfl, hk⟩
    obtain rfl := Bit.toNat_inj hk
    obtain rfl := hc.symm.trans hc'
    exact hdiff (by rw [ho])
  · rintro (⟨j, b', ho, hc', hdiff, hb'⟩ | ⟨hp, -⟩)
    · refine ⟨fun heq => hdiff ?_, j, b', ho, hc', hb'⟩
      obtain ⟨rfl, rfl⟩ := Prod.mk.inj heq
      obtain ⟨hindex, hblock⟩ := hm.find hne hc
      obtain ⟨hindex', hblock'⟩ := hm.find (i := j) (b := b') (by simp [hb']) hc'
      rw [← ho] at hindex' hblock'
      obtain rfl := Option.some.inj (hindex'.symm.trans hindex)
      obtain rfl := Option.some.inj (hblock'.symm.trans hblock)
      exact ⟨rfl, rfl⟩
    · cases hp

/-- A block of the application goes back to a thread. -/
theorem after_call [DecidableEq B] (hm : m.Sound) (h : Own t v m) (hv : v.Good t none)
    {offset : Offset B} (ho : (offset, c) ∈ m.live) : ∃ i b, offset.intoIndex = some i ∧
      offset.intoBlock c = some b ∧ ∃ v', v'.Good t (some ⟨i, b.toNat, c⟩) ∧
        After t m { m.setBlock offset c (.thread t) with live := m.live.erase (offset, c) } v' := by
  obtain ⟨i, b, rfl, hc, happ⟩ := (hm.live _ _).mp ho
  have hne : m.block i b.toNat ≠ .gone := by simp [happ]
  obtain ⟨hindex, hblock⟩ := hm.find hne hc
  obtain ⟨hsound, hacts⟩ := hm.reblock (t := t) (.call happ) (fun _ _ => hm.mem_erase happ hc)
    (hm.nodup.erase (.fromBlock c i b, c))
  rw [hm.setBlock_eq hne hc]
  refine ⟨i, b, hindex, hblock, ?_⟩
  obtain ⟨⟨L, hok⟩, hhand⟩ := hv
  have hunsized : m.place i ≠ .unsized t := fun hp =>
    SlabState.not_carved_unsized (x := m.slab i) hp (hm.carved hne)
  have hpinned : m.place i = .sized t → SlabState.Pinned t
      ((m.reblock i b.toNat (.thread t) (m.live.erase (.fromBlock c i b, c))).slab i) := by
    rw [slab_reblock]
    exact fun hp => ⟨hp, b.toNat, .inr (update_self ..)⟩
  by_cases hmine : m.place i = .sized t ∧ v.place i = .away
  · -- all its blocks were out, and now the thread has one of them
    obtain ⟨hsized, haway⟩ := hmine
    have hempty : (m.bits i).elems = ∅ := by
      rw [Finset.eq_empty_iff_forall_notMem]
      intro k hk
      have hslab : m.block i k = .slab := ((hm.slab i).mem_bits t hsized k).mp hk
      have hp : v.place i = .sized := h.sized.mpr ⟨hsized, k, .inl hslab⟩
      rw [haway] at hp
      cases hp
    have hother : ∀ j, j ≠ i → ({ v with
        place := update v.place i .sized
        next := update v.next i (m.next i)
        owner := update v.owner i (m.owner i)
        sizeClass := update v.sizeClass i (m.sizeClass i)
        bits := update v.bits i (m.bits i)
        hand := some ⟨i, b.toNat, c⟩ } : View T B).hold j = v.hold j := fun j hj => by
      simp [View.hold, hj]
    have hok' := hok.hold haway (update_self ..) (by simp [hempty]) hother rfl rfl
    refine ⟨_, ⟨⟨L, hok'⟩, rfl⟩, hsound, hacts, h.call hhand hc rfl rfl rfl ⟨rfl, rfl⟩ ?_ hother⟩
    refine .of_sized (update_self ..) (hpinned hsized) ?_
    rw [slab_reblock]
    constructor <;> simp [View.hold, slab]
  · refine ⟨_, ⟨⟨L, hok.forget (some ⟨i, b.toNat, c⟩) v.seen v.link⟩, rfl⟩, hsound, hacts,
      h.call hhand hc rfl rfl rfl ⟨rfl, rfl⟩ ?_ fun _ _ => rfl⟩
    cases hp : v.place i with
    | unsized => exact absurd (h.unsized.mp hp) hunsized
    | away =>
      rw [slab_reblock]
      exact .of_away hp hunsized fun hpin => hmine ⟨hpin.1, hp⟩
    | sized =>
      have hagrees := h.agrees (i := i) (by simp [hp])
      refine .of_sized hp (hpinned (h.sized.mp hp).1) ?_
      rw [slab_reblock]
      exact ⟨hagrees.next, hagrees.owner, hagrees.sizeClass, hagrees.bits⟩

/-! ### Whole runs -/

variable [DecidableEq B]

/-- A call keeps the protocol from its beginning on. -/
theorem calls_allocating (hbatch : cfg.batchBump % 2 ^ 32 ≠ 0) :
    (allocating cfg : Protocol (system cfg : System T (HeapAct T B) (HeapMem T B) Panic)
      Fresh).Calls := by
  intro t call m hm hrest hlegal
  obtain ⟨v, L, hok, hhand, hown⟩ := hrest
  have hv : v.Good t none := ⟨⟨L, hok⟩, hhand⟩
  have hback : ∀ (_ : Unit) m', (∃ v' : View T B, v'.Good t none ∧ Own t v' m') → Rest t m' :=
    fun _ m' ⟨v', ⟨⟨L', hok'⟩, hhand'⟩, hown'⟩ => ⟨v', L', hok', hhand', hown'⟩
  cases call with
  | allocate c =>
    exact ⟨hm, (allocating cfg).guar_refl t m,
      (keeps_of_follow (View.follow_code_allocate hbatch hv) hown).mono hback⟩
  | free offset c =>
    obtain ⟨i, b, hindex, hblock, v', hv', hafter⟩ := after_call hm hown hv hlegal
    exact ⟨hafter.sound, ⟨hafter.acts, private_setBlock⟩,
      (keeps_of_follow (View.follow_code_free hv' hindex hblock) hafter.own).mono hback⟩

omit [DecidableEq B] [LawfulBracket B] in
theorem sound_zeroed : (zeroed : HeapMem T B).Sound := by
  refine ⟨fun i => ?_, fun i => ?_, ?_, ⟨[], rfl, ?_⟩, ?_, ?_⟩
  · constructor <;> simp [SlabState.Carved, slab, zeroed]
  · exact iff_of_true rfl i.pos
  · exact Nat.one_lt_two_pow (by decide)
  · simp [zeroed]
  · intro o c
    refine iff_of_false (by simp [zeroed]) ?_
    rintro ⟨i, b, -, -, hb⟩
    cases hb
  · exact List.nodup_nil

omit [DecidableEq B] [LawfulBracket B] [DecidableEq T] in
theorem own_zeroed : Own t ⟨fun _ => none, fun _ => 0, fun _ => .away, fun _ => none, fun _ => none,
    fun _ => Bracket.zeroed, fun _ => BitSet.zeroed, none, none, none⟩ (zeroed : HeapMem T B) := by
  constructor
  · exact fun _ => rfl
  · exact fun _ => rfl
  · exact fun i => .of_away rfl (by simp [slab, zeroed]) (by simp [SlabState.Pinned, slab, zeroed])
  · intro i b
    simp [zeroed]
  · simp
  · rfl
  · simp

/-- In every state that can be reached, the invariant holds and every thread keeps to it. -/
theorem good_of_run (hbatch : cfg.batchBump % 2 ^ 32 ≠ 0) {w : Pool T (HeapAct T B) (HeapMem T B)}
    (hrun : ReflTransGen (Pool.Steps (system cfg) Fresh) (Pool.idle zeroed) w) :
    (allocating cfg).Good w := by
  refine run (calls_allocating hbatch) (good_idle sound_zeroed fun t m' hm' hrely => ?_) hrun
  refine ⟨_, fun _ => [], ?_, rfl, stable_own _ m' hm' hrely own_zeroed⟩
  exact ⟨⟨fun _ => rfl, by simp⟩, by simp, by simp, by simp [BitSet.elems], by simp⟩

/-! ### No block is handed out twice -/

omit [DecidableEq B] in
/-- What the application holds is made of blocks of slabs. -/
theorem Sound.block_of_live (hm : m.Sound) {p : Offset B × B} (hp : p ∈ m.live) :
    ∃ (i : Index B) (b : ℕ), p.1 = .fromBlock p.2 i (.fromLoose b) ∧ m.sizeClass i = p.2 ∧
      isZero p.2 = false ∧ i.value < 2 ^ 32 ∧ b < count p.2 := by
  obtain ⟨i, b, ho, hc, hb⟩ := (hm.live p.1 p.2).mp hp
  have hne : m.block i b.toNat ≠ .gone := by simp [hb]
  have hlt : b.toNat < count p.2 := hc ▸ (hm.slab i).lt_count hne
  have hbit : Bit.fromLoose b.toNat = b := Bit.toNat_inj (Bit.fromLoose_count hlt)
  refine ⟨i, b.toNat, by rw [hbit]; exact ho, hc, ?_, hm.index_lt hne, hlt⟩
  rw [← hc]
  exact (hm.slab i).isZero (hm.carved hne)

omit [DecidableEq B] in
theorem Sound.disjoint (hm : m.Sound) (hslab : sizeSlab B ≤ 2 ^ 31) :
    m.live.Pairwise fun p q => Disjoint (p.1.bytes p.2) (q.1.bytes q.2) := by
  refine hm.nodup.pairwise_of_forall_ne fun p hp q hq hpq => ?_
  obtain ⟨i, b, ho, hc, hzero, hi, hb⟩ := hm.block_of_live hp
  obtain ⟨i', b', ho', hc', hzero', hi', hb'⟩ := hm.block_of_live hq
  rw [ho, ho']
  by_cases heq : i = i'
  · subst heq
    have hclass : p.2 = q.2 := hc.symm.trans hc'
    rw [← hclass] at ho' hb' ⊢
    refine (addressing hslab).blocks p.2 i b b' hzero hi hb hb' ?_
    rintro rfl
    exact hpq (Prod.ext (ho.trans ho'.symm) hclass)
  · exact (addressing hslab).slabs p.2 q.2 i i' b b' hzero hzero' hi hi' hb hb' heq

/-- **What the application holds never overlaps**, whatever the threads do and in whichever order
their loads, stores and compare-exchanges take effect. -/
theorem live_disjoint (hslab : sizeSlab B ≤ 2 ^ 31) (hbatch : cfg.batchBump % 2 ^ 32 ≠ 0)
    {w : Pool T (HeapAct T B) (HeapMem T B)}
    (hrun : ReflTransGen (Pool.Steps (system cfg) Fresh) (Pool.idle zeroed) w) :
    w.mem.live.Pairwise fun p q => Disjoint (p.1.bytes p.2) (q.1.bytes q.2) :=
  (good_of_run hbatch hrun).inv.disjoint hslab

/-- A thread that has lost a race tries once more. -/
def again : Config :=
  { Config.initial false with retry := 1 }

set_option maxRecDepth 4000 in
/-- Two threads race for the first slab.  The one that loses takes the second. -/
theorem live_disjoint_race :
    ∃ w : Pool (Fin 2) (HeapAct (Fin 2) Large) (HeapMem (Fin 2) Large),
      ReflTransGen (Pool.Steps (system again) Fresh) (Pool.idle zeroed) w ∧
      w.mem.live = [(.fromBlock ⟨8⟩ ⟨2, Nat.two_pos⟩ ⟨0, 0⟩, ⟨8⟩), (.fromBlock ⟨8⟩ .min ⟨0, 0⟩, ⟨8⟩)] ∧
      w.mem.live.Pairwise fun p q => Disjoint (p.1.bytes p.2) (q.1.bytes q.2) := by
  have h₀ : ReflTransGen (Pool.Steps (system (T := Fin 2) (B := Large) again) Fresh)
    (Pool.idle zeroed) (Pool.idle zeroed) := .refl
  have h₁ := Pool.play_trans h₀ [.call 0 (.allocate ⟨8⟩), .call 1 (.allocate ⟨8⟩), .go 0 6,
    .go 1 100, .go 0 100] rfl
  exact ⟨_, h₁, rfl, live_disjoint (by decide) (by decide) h₁⟩

/-! ### No slab is lost -/

omit [DecidableEq B] [LawfulBracket B] in
/-- Every slab of a thread at rest is on one of its stacks, or has no free block. -/
theorem Rest.stacks (hrest : Rest t m) (hm : m.Sound) : ∃ L : Option B → List (Index B),
    (∀ k, Seg m.next (m.head (.of t k)) (L k) none) ∧ (∀ i b, m.block i b ≠ .thread t) ∧
      (∀ i, i ∈ L none ↔ m.place i = .unsized t) ∧
      ∀ c i, i ∈ L (some c) ↔ m.place i = .sized t ∧ m.sizeClass i = c ∧ ∃ b, m.block i b = .slab := by
  obtain ⟨v, L, hok, hhand, hown⟩ := hrest
  have hmem : ∀ {i}, v.place i ≠ .away → m.next i = v.next i := fun hi => (hown.agrees hi).next
  refine ⟨L, fun k => ?_, hown.not_thread hhand, fun i => ?_, fun c i => ?_⟩
  · rw [hown.head]
    refine (hok.chains.seg k).congr fun i hi => hmem ?_
    cases k with
    | none => simp [(hok.unsized i).mp hi]
    | some c => simp [((hok.sized c i).mp hi).1]
  · rw [hok.unsized, hown.unsized]
  · rw [hok.sized]
    constructor
    · rintro ⟨hp, hc, b, hb⟩
      have hagrees := hown.agrees (i := i) (by simp [hp])
      have hpin := hown.sized.mp hp
      rw [show v.bits i = m.bits i from hagrees.bits.symm] at hb
      rw [show v.sizeClass i = m.sizeClass i from hagrees.sizeClass.symm] at hc
      exact ⟨hpin.1, hc, b, ((hm.slab i).mem_bits t hpin.1 b).mp hb⟩
    · rintro ⟨hs, hc, b, hb⟩
      have hp : v.place i = .sized := hown.sized.mpr ⟨hs, b, .inl hb⟩
      have hagrees := hown.agrees (i := i) (by simp [hp])
      refine ⟨hp, ?_, b, ?_⟩
      · rw [show v.sizeClass i = m.sizeClass i from hagrees.sizeClass.symm]
        exact hc
      · rw [show v.bits i = m.bits i from hagrees.bits.symm]
        exact ((hm.slab i).mem_bits t hs b).mpr hb

/-- Where the slabs are when no call is under way. -/
structure Accounted (m : HeapMem T B) (L : Loc T B → List (Index B)) : Prop where
  /-- The stacks are chains that share no slab. -/
  chains : Chains m.next m.heads L
  handed : ∀ l, ∀ i ∈ L l, i.value < m.bumpIndex
  /-- A slab that is not carved into blocks has none with the application. -/
  whole : ∀ p ∈ m.live, ∀ i, p.1.intoIndex = some i → i ∉ L none ∧ ∀ t, i ∉ L (some (.unsized t))
  /-- A slab that is on no stack has one there. -/
  found : ∀ i, i.value < m.bumpIndex → (∃ l, i ∈ L l) ∨ ∃ p ∈ m.live, p.1.intoIndex = some i

omit [DecidableEq B] in
/-- A carved slab that has no free block has one with the application. -/
theorem Sound.held (hm : m.Sound) (hthread : ∀ t i b, m.block i b ≠ .thread t)
    (hcarved : (m.slab i).Carved) (hnone : ∀ b, m.block i b ≠ .slab) :
    ∃ p ∈ m.live, p.1.intoIndex = some i := by
  have hpos : 0 < (m.slab i).counted.card := by
    rw [← (hm.slab i).counter hcarved]
    exact (hm.slab i).pos hcarved
  obtain ⟨k, hk⟩ := Finset.card_pos.mp hpos
  obtain ⟨hlt, hne⟩ := SlabState.mem_counted.mp hk
  have hbit : (Bit.fromLoose k).toNat = k := Bit.fromLoose_count hlt
  have happ : m.block i (Bit.fromLoose k).toNat = .application := by
    rw [hbit]
    cases hb : m.block i k with
    | slab => exact absurd hb (hnone k)
    | thread t => exact absurd hb (hthread t i k)
    | gone => exact absurd hb hne
    | application => rfl
  refine ⟨(.fromBlock (m.sizeClass i) i (.fromLoose k), m.sizeClass i), ?_, ?_⟩
  · exact (hm.live _ _).mpr ⟨i, _, rfl, rfl, happ⟩
  · exact (hm.find (by simp [happ]) rfl).1

/-- The stacks of all threads and the global one. -/
def shelves (slabs : List (Index B)) (chain : T → Option B → List (Index B)) :
    Loc T B → List (Index B)
  | none => slabs
  | some (.unsized t) => chain t none
  | some (.sized t c) => chain t (some c)

/-- Where the slabs of a stack are. -/
def placeOf : Loc T B → SlabPlace T
  | none => .global
  | some (.unsized t) => .unsized t
  | some (.sized t _) => .sized t

omit [DecidableEq B] in
theorem Sound.carved_of_live (hm : m.Sound) {p : Offset B × B} (hp : p ∈ m.live)
    (hi : p.1.intoIndex = some i) : (m.slab i).Carved := by
  obtain ⟨j, b, ho, hc, hb⟩ := (hm.live p.1 p.2).mp hp
  have hne : m.block j b.toNat ≠ .gone := by simp [hb]
  have hindex := (hm.find hne hc).1
  rw [← ho, hi] at hindex
  obtain rfl := Option.some.inj hindex
  exact hm.carved hne

omit [DecidableEq B] in
theorem Sound.accounted (hm : m.Sound) (hrest : ∀ t, Rest t m) :
    ∃ L : Loc T B → List (Index B), m.Accounted L := by
  choose chain hseg hthread hunsized hsized using fun t => (hrest t).stacks hm
  obtain ⟨slabs, hglobal, hslabs⟩ := hm.stack
  have hplace : ∀ l, ∀ i ∈ shelves slabs chain l, m.place i = placeOf l := by
    intro l i hi
    rcases l with _ | t | ⟨t, c⟩
    · exact (hslabs i).mp hi
    · exact (hunsized t i).mp hi
    · exact ((hsized t c i).mp hi).1
  have hclass : ∀ t c, ∀ i ∈ shelves slabs chain (some (.sized t c)), m.sizeClass i = c :=
    fun t c i hi => ((hsized t c i).mp hi).2.1
  refine ⟨shelves slabs chain, ⟨fun l => ?_, fun l l' i hi hi' => ?_⟩, fun l i hi => ?_,
    fun p hp i hi => ?_, fun i hi => ?_⟩
  · rcases l with _ | t | ⟨t, c⟩
    · exact hglobal
    · exact hseg t none
    · exact hseg t (some c)
  · have heq : placeOf l = placeOf l' := (hplace l i hi).symm.trans (hplace l' i hi')
    rcases l with _ | t | ⟨t, c⟩ <;> rcases l' with _ | t' | ⟨t', c'⟩ <;> cases heq
    · rfl
    · rfl
    · rw [← hclass t c i hi, hclass t c' i hi']
  · have hfresh : m.place i ≠ .fresh := by
      rw [hplace l i hi]
      rcases l with _ | t | ⟨t, c⟩ <;> simp [placeOf]
    rw [Ne, hm.fresh] at hfresh
    omega
  · have hcarved := hm.carved_of_live hp hi
    refine ⟨fun hmem => ?_, fun t hmem => ?_⟩
    · have hp : (m.slab i).place = .global := hplace none i hmem
      simp [SlabState.Carved, hp] at hcarved
    · exact SlabState.not_carved_unsized (hplace (some (.unsized t)) i hmem) hcarved
  · have hnone : ∀ t i b, m.block i b ≠ .thread t := hthread
    cases hp : m.place i with
    | fresh =>
      rw [hm.fresh] at hp
      omega
    | global => exact .inl ⟨none, (hslabs i).mpr hp⟩
    | unsized t => exact .inl ⟨some (.unsized t), (hunsized t i).mpr hp⟩
    | sized t =>
      by_cases hfree : ∃ b, m.block i b = .slab
      · exact .inl ⟨some (.sized t (m.sizeClass i)), (hsized t _ i).mpr ⟨hp, rfl, hfree⟩⟩
      · exact .inr (hm.held hnone (.of_sized hp) fun b hb => hfree ⟨b, hb⟩)
    | disowned => exact .inr (hm.held hnone (.inr hp) ((hm.slab i).empty hp))

/-- **No slab is lost.**  In every state that can be reached and in which no call is under way, no
slab is on two stacks, and every slab that `bump` has handed out is on one, or else has a block
with the application. -/
theorem no_slab_lost (hbatch : cfg.batchBump % 2 ^ 32 ≠ 0)
    {w : Pool T (HeapAct T B) (HeapMem T B)}
    (hrun : ReflTransGen (Pool.Steps (system cfg) Fresh) (Pool.idle zeroed) w)
    (hidle : ∀ t, w.prog t = .ret ()) : ∃ L : Loc T B → List (Index B), w.mem.Accounted L := by
  have hgood := good_of_run hbatch hrun
  exact Sound.accounted hgood.inv fun t => hgood.rest trivial (hidle t)

set_option maxRecDepth 4000 in
/-- The last block of a slab is freed by the thread that did not carve it, and the slab goes to the
global stack, since that thread keeps none. -/
theorem no_slab_lost_claimed :
    ∃ w : Pool (Fin 2) (HeapAct (Fin 2) Large) (HeapMem (Fin 2) Large),
      ReflTransGen (Pool.Steps (system again) Fresh) (Pool.idle zeroed) w ∧
      w.mem.place .min = .global ∧ ∃ L : Loc (Fin 2) Large → List (Index Large), w.mem.Accounted L := by
  have h₀ : ReflTransGen (Pool.Steps (system (T := Fin 2) (B := Large) again) Fresh)
    (Pool.idle zeroed) (Pool.idle zeroed) := .refl
  have h₁ := Pool.play_trans h₀ [.call 0 (.allocate ⟨9⟩), .go 0 100,
    .call 1 (.free (.fromBlock ⟨9⟩ .min ⟨0, 0⟩) ⟨9⟩), .go 1 100] rfl
  exact ⟨_, h₁, rfl, no_slab_lost (by decide) h₁ (Fin.forall_fin_two.mpr ⟨rfl, rfl⟩)⟩

/-! ### The remote counters -/

/-- The blocks of a slab that the application holds. -/
theorem Sound.card_held (hm : m.Sound) : ((Finset.range (count (m.sizeClass i))).filter fun k =>
    m.block i k = .application).card = (m.live.filter fun p => p.1.intoIndex = some i).length := by
  -- a block that the application holds, under the offset it was handed out with
  have hheld : ∀ k ∈ (Finset.range (count (m.sizeClass i))).filter fun k =>
      m.block i k = .application, m.block i (Bit.fromLoose k).toNat = .application ∧
        (Bit.fromLoose k).toNat = k := fun k hk => by
    obtain ⟨hlt, hb⟩ := Finset.mem_filter.mp hk
    have hbit := Bit.fromLoose_count (Finset.mem_range.mp hlt)
    exact ⟨by rw [hbit]; exact hb, hbit⟩
  have hfind : ∀ k, m.block i (Bit.fromLoose k).toNat = .application →
      m.block i (Bit.fromLoose k).toNat ≠ .gone := fun k hk => by simp [hk]
  rw [← List.toFinset_card_of_nodup (hm.nodup.filter _)]
  refine Finset.card_bij (fun k _ => (.fromBlock (m.sizeClass i) i (.fromLoose k), m.sizeClass i))
    (fun k hk => ?_) (fun k hk k' hk' heq => ?_) fun p hp => ?_
  · have happ := (hheld k hk).1
    rw [List.mem_toFinset, List.mem_filter]
    exact ⟨(hm.live _ _).mpr ⟨i, _, rfl, rfl, happ⟩, decide_eq_true (hm.find (hfind k happ) rfl).1⟩
  · obtain ⟨happ, hbit⟩ := hheld k hk
    obtain ⟨happ', hbit'⟩ := hheld k' hk'
    have hblock := (hm.find (hfind k happ) rfl).2
    rw [(Prod.mk.inj heq).1, (hm.find (hfind k' happ') rfl).2] at hblock
    rw [← hbit, ← Option.some.inj hblock, hbit']
  · rw [List.mem_toFinset, List.mem_filter] at hp
    obtain ⟨hlive, hindex⟩ := hp
    obtain ⟨j, b, ho, hc, hb⟩ := (hm.live p.1 p.2).mp hlive
    have hne : m.block j b.toNat ≠ .gone := by simp [hb]
    have hj := (hm.find hne hc).1
    rw [← ho, of_decide_eq_true hindex] at hj
    obtain rfl := Option.some.inj hj
    have hlt : b.toNat < count (m.sizeClass i) := (hm.slab i).lt_count hne
    refine ⟨b.toNat, Finset.mem_filter.mpr ⟨Finset.mem_range.mpr hlt, hb⟩, ?_⟩
    rw [Bit.toNat_inj (Bit.fromLoose_count hlt), hc, ← ho]

omit [LawfulBracket B] [DecidableEq B] in
/-- The blocks of a slab that are free at its owner. -/
theorem Sound.card_free (hm : m.Sound) (hcarved : (m.slab i).Carved) :
    ((Finset.range (count (m.sizeClass i))).filter fun k => m.block i k = .slab).card =
      if m.owner i = none then 0 else (m.bits i).len := by
  rcases hcarved with ⟨t, hp⟩ | hp
  · have howner : m.owner i = some t := (hm.slab i).owner t hp
    have hvalid : (m.bits i).validate = true := (hm.slab i).valid t hp
    rw [if_neg (by simp [howner]), BitSet.len_eq_card hvalid]
    congr 1
    ext k
    have hmem : k ∈ (m.bits i).elems ↔ m.block i k = .slab := (hm.slab i).mem_bits t hp k
    rw [Finset.mem_filter, hmem, Finset.mem_range]
    refine ⟨And.right, fun hb => ⟨?_, hb⟩⟩
    exact (hm.slab i).lt_count (b := k) (by simp [HeapMem.slab, hb])
  · have howner : m.owner i = none := (hm.slab i).disowned hp
    rw [if_pos howner, Finset.card_eq_zero, Finset.filter_eq_empty_iff]
    exact fun k _ => (hm.slab i).empty hp k

theorem Sound.counter (hm : m.Sound) (hthread : ∀ t i b, m.block i b ≠ .thread t)
    (hcarved : (m.slab i).Carved) : (m.remote i).inner.free =
      (if m.owner i = none then 0 else (m.bits i).len) +
        (m.live.filter fun p => p.1.intoIndex = some i).length := by
  rw [← hm.card_free hcarved, ← hm.card_held,
    ← Finset.card_union_of_disjoint (Finset.disjoint_filter.mpr fun k _ hs ha => by simp [hs] at ha),
    ← Finset.filter_or]
  refine ((hm.slab i).counter hcarved).trans (congrArg Finset.card (Finset.filter_congr fun k _ => ?_))
  show m.block i k ≠ .gone ↔ _
  cases hb : m.block i k with
  | slab => simp
  | thread t => exact absurd hb (hthread t i k)
  | application => simp
  | gone => simp

/-- **The remote counters are exact.**  In every state that can be reached and in which no call is
under way, the counter of a slab that is carved into blocks is the number of its blocks that are
free at its owner, if it has one, and of those with the application. -/
theorem counter_exact (hbatch : cfg.batchBump % 2 ^ 32 ≠ 0)
    {w : Pool T (HeapAct T B) (HeapMem T B)}
    (hrun : ReflTransGen (Pool.Steps (system cfg) Fresh) (Pool.idle zeroed) w)
    (hidle : ∀ t, w.prog t = .ret ()) {i : Index B} (hcarved : (w.mem.slab i).Carved) :
    (w.mem.remote i).inner.free =
      (if w.mem.owner i = none then 0 else (w.mem.bits i).len) +
        (w.mem.live.filter fun p => p.1.intoIndex = some i).length := by
  have hgood := good_of_run hbatch hrun
  refine Sound.counter hgood.inv (fun t => ?_) hcarved
  obtain ⟨L, -, hthread, -⟩ := (hgood.rest trivial (hidle t)).stacks hgood.inv
  exact hthread

set_option maxRecDepth 4000 in
/-- One of two blocks is freed by the other thread. -/
theorem counter_exact_remote :
    ∃ w : Pool (Fin 2) (HeapAct (Fin 2) Large) (HeapMem (Fin 2) Large),
      ReflTransGen (Pool.Steps (system again) Fresh) (Pool.idle zeroed) w ∧ w.mem.live = [] ∧
      (w.mem.bits .min).len = 1 ∧ (w.mem.remote .min).inner.free =
        (if w.mem.owner .min = none then 0 else (w.mem.bits .min).len) +
          (w.mem.live.filter fun p => p.1.intoIndex = some .min).length := by
  have h₀ : ReflTransGen (Pool.Steps (system (T := Fin 2) (B := Large) again) Fresh)
    (Pool.idle zeroed) (Pool.idle zeroed) := .refl
  have h₁ := Pool.play_trans h₀ [.call 0 (.allocate ⟨8⟩), .go 0 100,
    .call 1 (.free (.fromBlock ⟨8⟩ .min ⟨0, 0⟩) ⟨8⟩), .go 1 100] rfl
  exact ⟨_, h₁, rfl, rfl,
    counter_exact (by decide) h₁ (Fin.forall_fin_two.mpr ⟨rfl, rfl⟩) (.inl ⟨0, rfl⟩)⟩

/-! ### No thread finds the heap in disorder -/

/-- **A thread stops only at the end of its retries or of the indices.**  In every state that can
be reached, if the next access of a thread panics then one of its loops has run out of tries, or
`bump` has no index left: no `unwrap` meets a `None`, no counter or length goes below zero, no
slab is missing from its stack. -/
theorem stops_of_reached (hbatch : cfg.batchBump % 2 ^ 32 ≠ 0) (hvalidate : cfg.validate = false)
    (hglobal : 1 ≤ cfg.batchGlobal) (hcache : cfg.batchGlobal ≤ cfg.cacheLocal + 1)
    {w : Pool T (HeapAct T B) (HeapMem T B)}
    (hrun : ReflTransGen (Pool.Steps (system cfg) Fresh) (Pool.idle zeroed) w)
    {β : Type} {act : HeapAct T B β} {k : β → Prog (HeapAct T B) Unit}
    (hprog : w.prog t = .step act k) {e : Panic} (hpanic : handle cfg t β act w.mem = .error e) :
    e = .diverge ∨ e = .indexOverflow :=
  (good_of_run hbatch hrun).needs trivial hprog e hpanic hvalidate hglobal hcache

set_option maxRecDepth 4000 in
/-- A thread that does not try again loses the race for the first slab. -/
theorem stops_of_lost_race :
    ∃ w : Pool (Fin 2) (HeapAct (Fin 2) Large) (HeapMem (Fin 2) Large),
      ReflTransGen (Pool.Steps (system (.initial false)) Fresh) (Pool.idle zeroed) w ∧
      ∃ k e, w.prog 0 = .step (.heap (.panic .diverge)) k ∧
        handle (.initial false) 0 Empty (.heap (.panic .diverge)) w.mem = .error e ∧
        (e = .diverge ∨ e = .indexOverflow) := by
  have h₀ : ReflTransGen (Pool.Steps (system (T := Fin 2) (B := Large) (.initial false)) Fresh)
    (Pool.idle zeroed) (Pool.idle zeroed) := .refl
  have h₁ := Pool.play_trans h₀ [.call 0 (.allocate ⟨8⟩), .call 1 (.allocate ⟨8⟩), .go 0 6,
    .go 1 100, .go 0 2] rfl
  exact ⟨_, h₁, _, .diverge, rfl, rfl,
    stops_of_reached (t := 0) (by decide) rfl le_rfl le_rfl h₁ rfl (e := .diverge) rfl⟩

/-! ### A thread that crashes is left alone -/

/-- **Whatever calls the others make, they leave thread `t` alone.** -/
theorem leaves_of_run {x : Tracked T B} (hbatch : cfg.batchBump % 2 ^ 32 ≠ 0)
    {w w' : Pool T (HeapAct T B) (HeapMem T B)} (hw : (allocating cfg).Among (· ≠ t) w)
    (hx : w.mem.Freeing t x)
    (hrun : ReflTransGen (Pool.Without (system cfg) Fresh t) w w') :
    Tracked.Leaves t (w.mem.tracked t x) (w'.mem.tracked t x) := by
  obtain ⟨hothers, hrely⟩ := hw.without (calls_allocating hbatch) hrun
  have hstable : (allocating cfg).Stable t fun m : HeapMem T B =>
      m.Freeing t x ∧ Tracked.Leaves t (w.mem.tracked t x) (m.tracked t x) :=
    stable_ofSteps fun u m m' hu hm hm' hguar h =>
      ⟨fun i hi hfrees => (h.1 i hi hfrees).imp fun b hb =>
        ((hguar.1.slab i).block_thread (hm.slab i) hu).mpr hb,
        h.2.trans (hguar.1.leaves hguar.2 hm hm' hu h.1)⟩
  exact (hstable _ _ hothers.inv hrely ⟨hx, .refl t _⟩).2

/-- What is proved of a crash among any `Others` holds among the calls of the heap. -/
theorem exists_others (hbatch : cfg.batchBump % 2 ^ 32 ≠ 0) (t : T) : ∃ e : Others T B t,
    ∀ w w' x, (allocating cfg).Among (· ≠ t) w → w.mem.Freeing t x →
      ReflTransGen (Pool.Without (system cfg) Fresh t) w w' →
      e.acts (w.mem.tracked t x) (w'.mem.tracked t x) := by
  let acts (y z : Tracked T B) := ∃ w w' x, (allocating cfg).Among (· ≠ t) w ∧ w.mem.Freeing t x ∧
    ReflTransGen (Pool.Without (system cfg) Fresh t) w w' ∧
    y = w.mem.tracked t x ∧ z = w'.mem.tracked t x
  refine ⟨⟨ReflTransGen acts, fun _ => .refl, fun _ _ _ => .trans, fun y z h => ?_⟩,
    fun w w' x hw hx hrun => .single ⟨w, w', x, hw, hx, hrun, rfl, rfl⟩⟩
  induction h with
  | refl => exact .refl t y
  | tail _ hstep ih =>
    obtain ⟨w, w', x, hw, hx, hrun, rfl, rfl⟩ := hstep
    exact ih.trans (leaves_of_run hbatch hw hx hrun)

omit [DecidableEq B] [LawfulBracket B] in
/-- Between two calls, the ghost state is the one that a crash is looked at from. -/
theorem tracked_start (hm : m.Sound) (hrest : Rest t m) (freeing : Option (Index B)) :
    m.tracked t (.start t m.toMem freeing) = .start t m.toMem freeing := by
  obtain ⟨L, hseg, hthread, hunsized, hsized⟩ := hrest.stacks hm
  obtain ⟨slabs, hglobal, hslabs⟩ := hm.stack
  have hmine : ∀ i, i ∈ m.ownedBy t ↔ ∃ k xs, Seg m.next (m.head (.of t k)) xs none ∧ i ∈ xs := by
    intro i
    constructor
    · rintro (hi | ⟨hi, b, hb⟩)
      · exact ⟨none, _, hseg none, (hunsized i).mpr hi⟩
      · exact ⟨_, _, hseg (some _), (hsized _ i).mpr ⟨hi, rfl, b, hb.resolve_right (hthread i b)⟩⟩
    · rintro ⟨k, xs, hxs, hi⟩
      rw [hxs.unique (hseg k)] at hi
      cases k with
      | none => exact .inl ((hunsized i).mp hi)
      | some c =>
        obtain ⟨hp, -, b, hb⟩ := (hsized c i).mp hi
        exact .inr ⟨hp, b, .inl hb⟩
  have htheirs : ∀ i, m.place i = .global ↔ ∃ xs, Seg m.next m.global.inner xs none ∧ i ∈ xs := by
    intro i
    rw [← hslabs]
    exact ⟨fun hi => ⟨slabs, hglobal, hi⟩, fun ⟨xs, hxs, hi⟩ => hxs.unique hglobal ▸ hi⟩
  simp only [tracked, Tracked.start]
  congr 1
  · exact Set.ext hmine
  · exact Set.ext fun i => and_congr (not_congr (hmine i)) (not_congr (htheirs i))

end HeapMem

end Cxlalloc
