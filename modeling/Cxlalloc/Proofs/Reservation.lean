/-
The bump index and the end of the reservation.

Only `Shared::bump` takes slabs nobody had before, and an allocation calls it only when
its thread has no slab left and the global stack is empty.  As long as the region has
room for one more batch whenever that happens, every block lies inside it.  `Shared::bump`
itself compares with the largest 32-bit index and not with the end of the region, so
without that proviso a heap that is filled runs over into the next one.
-/
import Cxlalloc.Proofs.Allocator
import Mathlib.Data.Finset.Card

namespace Cxlalloc

open Lib
open Lib.Prog
open Cxlalloc.Bracket
open Relation

variable {T B R α : Type} [Bracket B] [DecidableEq T] [DecidableEq B]

/-! ### When the bump index moves -/

/-- An allocation of class `c` by thread `t` finds no slab to take a block from. -/
def Heap.NeedsSlabs (t : T) (c : B) (h : Heap T B) : Prop :=
  isZero c = false ∧ h.head (.sized t c) = none ∧ h.head (.unsized t) = none ∧
    h.global.inner = none

instance (t : T) (c : B) (h : Heap T B) : Decidable (h.NeedsSlabs t c) :=
  inferInstanceAs (Decidable (_ ∧ _ ∧ _ ∧ _))

/-- If a call has to take new slabs, the region has room for a batch of them. -/
def Session.HasRoom (cfg : Config) (s : Session T B) : Call T B → Prop
  | .allocate t c => s.heap.NeedsSlabs t c →
      (s.heap.bumpIndex - 1 + cfg.batchBump % 2 ^ 32) * sizeSlab B ≤ reservationSize
  | .free _ _ => True

instance (cfg : Config) (s : Session T B) (c : Call T B) : Decidable (s.HasRoom cfg c) :=
  match c with
  | .allocate t c => inferInstanceAs (Decidable (s.heap.NeedsSlabs t c → _ ≤ _))
  | .free _ _ => inferInstanceAs (Decidable True)

namespace Heap

variable {t : T} {c : B} {cfg : Config} {i : Index B} {m : Mem T B R}

/-- A program that does not write the bump index leaves it alone. -/
theorem wp_steady {p : Code T B R α} {Q : α → Mem T B R → Prop}
    (hp : p.Only (Act.By t { bump := False }))
    (hQ : ∀ a m', p.exec Mem.handle m = .ok (a, m') → m'.bump = m.bump → Q a m') :
    wp Mem.handle p Q (fun _ => True) m := by
  unfold wp
  cases hx : p.exec Mem.handle m with
  | ok r => exact hQ r.1 r.2 hx (Mem.bump_of_by hp id hx)
  | error e => trivial

variable [FromState B R]

/-- With a slab on the unsized stack there is no need for another one. -/
theorem wp_steady_unsizedToSized {Q : Bool → Mem T B R → Prop}
    (hh : m.head (.unsized t) = some i) (hQ : ∀ m' : Mem T B R, m'.bump = m.bump → Q true m') :
    wp Mem.handle (unsizedToSized t c) Q (fun _ => True) m := by
  rw [unsizedToSized, wp_bind, Stack.wp_peek, hh]
  refine wp_steady (((by_unsizedToSized trivial trivial fun _ => trivial).only trivial).2 (some i))
    fun a m' hx hm' => ?_
  have ha : a = true := by
    refine Yields.exec (W := (· = true)) ?_ hx
    refine .bind fun _ => .bind fun _ => .bind fun _ => .bind fun _ => .bind fun _ => .bind fun _ =>
      .bind fun _ => .bind fun _ => .bind fun _ => .bind fun _ => rfl
  exact ha ▸ hQ m' hm'

/-- What an allocation does to the bump index. -/
def Grown (cfg : Config) (t : T) (c : B) (h : Heap T B) (bump : Word T (Option (Index B))) : Prop :=
  bump = h.bump ∨ h.NeedsSlabs t c ∧
    (bump.inner.getD .min).value = h.bumpIndex + cfg.batchBump % 2 ^ 32

theorem wp_grown_allocate (hs : m.head (.sized t c) = none) :
    wp Mem.handle (allocate cfg t c) (fun _ m' => Grown cfg t c m.toHeap m'.bump)
      (fun _ => True) m := by
  -- once a slab is there, sizing it does not move the index
  have hsized : ∀ {m' : Mem T B R}, Grown cfg t c m.toHeap m'.bump →
      wp Mem.handle (do
          lift (.record t (.unsizedToSized c))
          validateOwned cfg t
          Stack.peek (.sized t c))
        (fun _ m' => Grown cfg t c m.toHeap m'.bump) (fun _ => True) m' := fun hgrown =>
    wp_steady (t := t) (.bind (.lift trivial) fun _ =>
      .bind (by_validateOwned.only trivial) fun _ => .lift trivial)
      fun _ _ _ hm => hm ▸ hgrown
  rw [allocate]
  cases hc : isZero c with
  | true => exact .inl rfl
  | false =>
    rw [if_neg (by simp), wp_bind]
    cases hh : m.head (.unsized t) with
    | some i =>
      refine wp_steady_unsizedToSized hh fun m' hm' => ?_
      rw [if_pos rfl]
      exact hsized (.inl hm')
    | none =>
      refine wp_unsizedToSized_nil hh ?_
      rw [if_neg (by simp), wp_bind]
      have htail : ∀ m' : Mem T B R, Grown cfg t c m.toHeap m'.bump →
          wp Mem.handle (do
              let _ ← unsizedToSized t c
              lift (.record t (.unsizedToSized c))
              validateOwned cfg t
              Stack.peek (.sized t c))
            (fun _ m' => Grown cfg t c m.toHeap m'.bump) (fun _ => True) m' := fun _ hgrown => by
        rw [wp_bind]
        exact wp_steady (t := t) ((by_unsizedToSized trivial trivial fun _ => trivial).only trivial)
          fun _ _ _ hm => hsized (hm ▸ hgrown)
      cases hg : m.global.inner with
      | some i =>
        refine wp_sharedPop_some hg fun m₁ w _ hm₁ => ?_
        simp only [wp_bind, wp_record]
        refine wp_steady (t := t) (Slab.by_own.only trivial) fun _ m₂ _ hm₂ => ?_
        refine wp_steady (t := t) (Built.only (Stack.by_push rfl) trivial) fun _ m₃ _ hm₃ => ?_
        have := htail m₃ (.inl (by rw [hm₃, hm₂, hm₁]))
        simpa only [wp_bind, wp_record] using this
      | none =>
        refine wp_sharedPop_none hg fun m₁ hm₁ _ => ?_
        simp only [wp_bind]
        refine wp_bumpRange ?_ fun _ => trivial
        intro m₂ start e w hstart he _ hw hm₂
        rw [hm₁] at hstart
        simp only [wp_record]
        refine wp_steady (t := t) (Slab.by_link.only trivial) fun _ m₃ _ hm₃ => ?_
        refine wp_steady (t := t) (Built.only (Stack.by_set rfl) trivial) fun _ m₄ _ hm₄ => ?_
        have hgrown : Grown cfg t c m.toHeap m₄.bump := by
          refine .inr ⟨⟨hc, hs, hh, hg⟩, ?_⟩
          rw [hm₄, hm₃, hm₂, hw, ← hstart]
          exact he
        simpa only [wp_bind, wp_record] using htail _ hgrown

omit [FromState B R] in
/-- The block is popped without a look at the index. -/
theorem wp_grown_pop {h : Heap T B} {m' : Mem T B R} {r : Option (Index B × Bit)}
    (hgrown : Grown cfg t c h m'.bump) :
    wp Mem.handle (match r with
      | none => pure none
      | some (index, block) => do
        let offset ← Heap.pop cfg t c index block
        pure (some offset) : Code T B R (Option (Offset B)))
      (fun _ m' => Grown cfg t c h m'.bump) (fun _ => True) m' := by
  cases r with
  | none => exact hgrown
  | some r =>
    exact wp_steady (t := t) (.bind ((by_pop trivial fun _ => trivial).only trivial) fun _ => .pure _)
      fun _ _ _ hm => hm ▸ hgrown

omit [FromState B R] in
theorem wp_grown_peek {h : Heap T B} {m' : Mem T B R} {r : Option (Index B)}
    (hgrown : Grown cfg t c h m'.bump) :
    wp Mem.handle (match r with
      | none => pure none
      | some index => do
        let free ← lift (.loadBits index)
        pure (some (index, free.peekUnchecked)) : Code T B R (Option (Index B × Bit)))
      (fun _ m' => Grown cfg t c h m'.bump) (fun _ => True) m' := by
  cases r with
  | none => exact hgrown
  | some i => exact hgrown

/-- An allocation moves the bump index by a batch, and only if it needs slabs. -/
theorem wp_grown : wp Mem.handle (allocateBlock cfg t c : Code T B R _)
    (fun _ m' => Grown cfg t c m.toHeap m'.bump) (fun _ => True) m := by
  rw [allocateBlock, wp_bind]
  refine wp_mono ?_ (fun _ _ => wp_grown_pop) fun _ => id
  rw [peek, wp_bind, Stack.wp_peek]
  cases hs : m.head (.sized t c) with
  | some i => exact wp_grown_peek (r := some i) (.inl rfl)
  | none =>
    exact (wp_bind _ _).mpr (wp_mono (wp_grown_allocate hs) (fun _ _ => wp_grown_peek) fun _ => id)

end Heap

/-! ### Runs -/

namespace Session

variable [FromState B R] [LawfulBracket B] {s s' : Session T B} {cfg : Config} {a : Ledger T B}

omit [LawfulBracket B] in
/-- What one completed call does to the bump index. -/
theorem bump_call {help : T → T → Version} {log : T → Option R} {cl : Call T B}
    (hcall : s.call cfg help log cl = .ok s') :
    s'.heap.bumpIndex = s.heap.bumpIndex ∨
      ∃ t c, cl = .allocate t c ∧ s.heap.NeedsSlabs t c ∧
        s'.heap.bumpIndex = s.heap.bumpIndex + cfg.batchBump % 2 ^ 32 := by
  cases cl with
  | allocate t c =>
    rw [call] at hcall
    cases hx : (Heap.allocateBlock cfg t c : Code T B R _).exec Mem.handle
        { s.heap with help := help, log := log } with
    | error e =>
      rw [hx] at hcall
      cases hcall
    | ok r =>
      obtain ⟨r, m'⟩ := r
      have hheap : s'.heap = m'.toHeap := by
        rw [hx] at hcall
        cases r with
        | none => exact (Except.ok.inj hcall) ▸ rfl
        | some o => exact (Except.ok.inj hcall) ▸ rfl
      rw [hheap]
      rcases wp_ok Heap.wp_grown hx with hsame | ⟨hneeds, hgrown⟩
      · exact .inl (by rw [Heap.bumpIndex, hsame]; rfl)
      · exact .inr ⟨t, c, rfl, hneeds, hgrown⟩
  | free t o =>
    rw [call] at hcall
    cases hx : (Heap.free cfg t o : Code T B R _).exec Mem.handle
        { s.heap with help := help, log := log } with
    | error e =>
      rw [hx] at hcall
      cases hcall
    | ok r =>
      rw [hx] at hcall
      obtain rfl := Except.ok.inj hcall
      have hbump := Mem.bump_of_by (Heap.by_free.only trivial) id hx
      exact .inl (by rw [Heap.bumpIndex, Heap.bumpIndex, hbump])

omit [LawfulBracket B] in
/-- A call that has room stays inside the region. -/
theorem fits_step (hfit : s.heap.Fits) (hstep : StepWhere R (HasRoom cfg) cfg s s') :
    s'.heap.Fits := by
  obtain ⟨cl, help, log, -, hroom, hcall⟩ := hstep
  rw [Heap.Fits] at hfit ⊢
  rcases bump_call hcall with hsame | ⟨t, c, rfl, hneeds, hgrown⟩
  · rwa [hsame]
  · have hpos : 0 < s.heap.bumpIndex := (s.heap.bump.inner.getD .min).pos
    have hshift : s.heap.bumpIndex + cfg.batchBump % 2 ^ 32 - 1 =
        s.heap.bumpIndex - 1 + cfg.batchBump % 2 ^ 32 := by omega
    rw [hgrown, hshift]
    exact hroom hneeds

omit [LawfulBracket B] in
theorem fits_run (hrun : ReflTransGen (StepWhere R (HasRoom cfg) cfg) zeroed s) : s.heap.Fits := by
  induction hrun with
  | refl =>
    exact Nat.zero_le _ |>.trans_eq'
      (by simp [zeroed, Heap.zeroed, Heap.bumpIndex, Word.zeroed, Index.min])
  | tail _ hstep ih => exact fits_step ih hstep

/-- **Slabs stay inside their reservation**, and every live block is recognised by its own
heap, in every run in which the region has room for a batch whenever one is taken.
Indices count from one. -/
theorem inside_reservation (cfg : Config) (hbump : cfg.batchBump % 2 ^ 32 ≠ 0)
    (hpos : 1 ≤ cfg.batchGlobal) (hle : cfg.batchGlobal ≤ cfg.cacheLocal + 1) (s : Session T B)
    (hrun : ReflTransGen (StepWhere R (HasRoom cfg) cfg) zeroed s) :
    (∀ i : Index B, i.value < s.heap.bumpIndex → i.value * sizeSlab B ≤ reservationSize) ∧
      ∀ (d : Data B), ∀ o ∈ s.live, d.checkedPointerToOffset (d.offsetToPointer o) = some o ∧
        d.start ≤ d.offsetToPointer o ∧ d.offsetToPointer o < d.start + reservationSize := by
  have hfit := fits_run hrun
  obtain ⟨a, tr⟩ := tracks_run hbump hpos hle
    (ReflTransGen.mono (fun _ _ ⟨c, help, log, hl, _, hcall⟩ => ⟨c, help, log, hl, trivial, hcall⟩)
      _ _ hrun)
  refine ⟨fun i hi => ?_, fun d o ho => ?_⟩
  · exact (Nat.mul_le_mul_right _ (Nat.le_sub_one_of_lt hi)).trans hfit
  · have hin := tr.inside hfit ho
    exact ⟨Data.checked_eq_some_iff.mpr ⟨rfl, hin⟩, Data.offsetToPointer_mem hin⟩

/-- Two threads take a slab each. -/
theorem inside_reservation_two : ∃ s : Session (Fin 2) Large, s.live.card = 2 ∧
    s.heap.bumpIndex = 3 ∧ ∀ (d : Data Large), ∀ o ∈ s.live,
      d.checkedPointerToOffset (d.offsetToPointer o) = some o := by
  obtain ⟨s, hs, hcard, hindex⟩ : ∃ s : Running (Fin 2) Large (HeapState Large),
      Running.script (HasRoom (Config.initial true)) (Config.initial true)
        [.allocate 0 ⟨9⟩, .allocate 1 ⟨9⟩] .zeroed = some s ∧
        (s.live.card = 2 ∧ s.heap.bumpIndex = 3) :=
    exists_of_any (by decide +kernel)
  exact ⟨s.toSession, hcard, hindex, fun d o ho => ((inside_reservation _ (by decide) (by decide)
    (by decide) _ (Running.run_of_script hs)).2 d o ho).1⟩

/-! ### A run that fills the region -/

/-- A heap in which only whole slabs were allocated, `k` of them. -/
structure Filled (cfg : Config) (s : Session T Large) (k : ℕ) : Prop where
  ledger : ∃ a, Tracks cfg s.heap s.live a ∧ a.Exact
  card : s.live.card = k
  index : s.heap.bumpIndex ≤ k + 1
  block : ∀ o ∈ s.live, ∃ i : Index Large, o = Offset.fromBlock ⟨9⟩ i ⟨0, 0⟩

/-- One more slab is allocated, as long as there is an index for it. -/
theorem filled_step [FromState Large R] {s : Session T Large} {k : ℕ} (t : T)
    (h : Filled (.initial false) s k) (hk : k + 2 < 2 ^ 32) :
    ∃ s', Step R (.initial false) s s' ∧ Filled (.initial false) s' (k + 1) := by
  obtain ⟨a, tr, hexact⟩ := h.ledger
  have hcount : count (⟨9⟩ : Large) = 1 := by decide
  have hindex := h.index
  have hwp := Heap.wp_allocateBlock (R := R) (t := t) (c := (⟨9⟩ : Large))
    (m := { s.heap with help := fun _ _ => 0, log := fun _ => none }) tr rfl (by decide)
  cases hx : (Heap.allocateBlock (.initial false) t (⟨9⟩ : Large) : Code T Large R _).exec
      Mem.handle { s.heap with help := fun _ _ => 0, log := fun _ => none } with
  | error e =>
    rcases wp_error hwp hx with ⟨-, hused⟩ | ⟨-, hdrift⟩
    · have : 2 ^ 32 ≤ s.heap.bumpIndex + 1 % 2 ^ 32 := hused
      omega
    · exact absurd ⟨by decide, hexact⟩ hdrift
  | ok r =>
    obtain ⟨r, m'⟩ := r
    obtain ⟨o, a', rfl, hal⟩ := wp_ok hwp hx
    have hcall : s.call (R := R) (.initial false) (fun _ _ => 0) (fun _ => none)
        (.allocate t ⟨9⟩) = .ok { heap := m'.toHeap, live := insert o s.live } := by
      rw [call, hx]
    refine ⟨_, ⟨.allocate t ⟨9⟩, _, _, trivial, trivial, hcall⟩, ⟨a', ?_, ?_⟩, ?_, ?_, ?_⟩
    · simpa using hal.tracks
    · exact hexact.keeps fun s => hal.keeps (by decide) s
    · rw [Finset.card_insert_of_notMem hal.fresh, h.card]
    · rcases bump_call hcall with hsame | ⟨-, -, -, -, hgrown⟩
      · omega
      · have : (Config.initial false).batchBump % 2 ^ 32 = 1 := by decide
        omega
    · intro p hp
      rcases Finset.mem_insert.mp hp with rfl | hp
      · obtain ⟨i, b, rfl, hb, -⟩ := hal.block
        rw [hcount] at hb
        obtain rfl : b = ⟨0, 0⟩ := Bit.toNat_inj (Nat.lt_one_iff.mp hb)
        exact ⟨i, rfl⟩
      · exact h.block p hp

theorem filled_run [FromState Large R] (t : T) {k : ℕ} (hk : k + 1 < 2 ^ 32) :
    ∃ s : Session T Large, ReflTransGen (Step R (.initial false)) zeroed s ∧
      Filled (.initial false) s k := by
  induction k with
  | zero =>
    refine ⟨zeroed, .refl, ⟨Ledger.zeroed, by simpa [zeroed] using Tracks.zeroed, fun _ => rfl⟩,
      rfl, le_refl 1, fun o ho => ?_⟩
    cases ho
  | succ k ih =>
    obtain ⟨s, hrun, h⟩ := ih (by omega)
    obtain ⟨s', hstep, h'⟩ := filled_step (R := R) t h hk
    exact ⟨s', hrun.tail hstep, h'⟩

omit [DecidableEq T] in
/-- No more whole slabs lie inside the region than it has room for. -/
theorem Filled.le_of_inside {s : Session T Large} {k : ℕ} (h : Filled cfg s k)
    (hin : ∀ o ∈ s.live, Data.Inside o) : k ≤ reservationSize / Large.sizeSlab := by
  rw [← h.card, ← Finset.card_range (reservationSize / Large.sizeSlab)]
  refine Finset.card_le_card_of_surjOn
    (fun n => .fromBlock ⟨9⟩ ⟨n + 1, n.succ_pos⟩ ⟨0, 0⟩) fun o ho => ?_
  obtain ⟨i, rfl⟩ := h.block o ho
  have hend : i.value * Large.sizeSlab + 0 * size (⟨9⟩ : Large) <
      Large.sizeSlab + reservationSize := (hin _ ho).2
  have hi := i.pos
  have hslab : Large.sizeSlab = 2 ^ 19 := by decide
  have hlt : i.value - 1 < reservationSize / Large.sizeSlab := by
    rw [reservationSize, hslab] at hend ⊢
    omega
  refine ⟨i.value - 1, Finset.mem_coe.mpr (Finset.mem_range.mpr hlt), ?_⟩
  exact Offset.ext (by simp [Offset.fromBlock, Nat.sub_add_cancel hi])

/-- A thread that allocates one slab more than the region has gets a block behind its end,
where the next region begins. -/
theorem runs_over : ∃ s : Session (Fin 1) Large,
    ReflTransGen (Step (HeapState Large) (.initial false)) zeroed s ∧
    (∃ i : Index Large, i.value < s.heap.bumpIndex ∧
      reservationSize < i.value * sizeSlab Large) ∧
    ∃ o ∈ s.live, ∀ g : Regions,
      g.large.checkedPointerToOffset (g.large.offsetToPointer o) = none ∧
        g.huge ≤ g.large.offsetToPointer o := by
  obtain ⟨s, hrun, hfull⟩ := filled_run (R := HeapState Large) (0 : Fin 1) (k := 2 ^ 21 + 1)
    (by decide)
  obtain ⟨o, ho, hout⟩ : ∃ o ∈ s.live, ¬ Data.Inside o := by
    by_contra hnone
    have hle := hfull.le_of_inside fun o ho => by_contra fun h => hnone ⟨o, ho, h⟩
    exact absurd hle (by decide)
  obtain ⟨a, tr, -⟩ := hfull.ledger
  obtain ⟨i, b, rfl, -, hsize, hlt, hend⟩ := tr.block ho
  have hpos : sizeSlab Large ≤ i.value * sizeSlab Large := Nat.le_mul_of_pos_left _ i.pos
  rw [Data.Inside, Offset.fromBlock_value] at hout
  refine ⟨s, hrun, ⟨i, hlt, by omega⟩, _, ho, fun g => ?_⟩
  have hptr := Data.offsetToPointer_eq (d := g.large) (o := Offset.fromBlock (s.heap.sizeClass i) i b)
  rw [Offset.fromBlock_value] at hptr
  have hbehind : g.large.start + reservationSize ≤
      g.large.offsetToPointer (Offset.fromBlock (s.heap.sizeClass i) i b) := by omega
  exact ⟨Data.checked_eq_none (.inr hbehind), g.huge_start ▸ hbehind⟩

end Session

end Cxlalloc
