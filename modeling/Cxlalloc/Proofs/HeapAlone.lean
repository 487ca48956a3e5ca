/-
Threads that stop in the middle of a call are in nobody's way.

A compare-exchange fails only if another thread has changed the word since it was read.  A thread
that runs alone reads a word and finds it unchanged, so `update` goes through its loop once
(`Built.alone`), and apart from the search of `sized_to_unsized` no other loop of the heap has a
bound that it could miss.  The search is along a stack of the thread itself, which the others
leave alone.

So whatever the others are in the middle of, a call that runs alone is done (`alone_completes`).
-/
import Cxlalloc.Proofs.Heap
import Cxlalloc.Proofs.HeapCalls

namespace Cxlalloc

open Lib
open Lib.Prog Lib.Protocol
open Cxlalloc.Bracket
open Relation
open Function

theorem BitSet.set_ne_diverge {n : ℕ} {v : Bool} {s : BitSet n} {b : Bit} :
    s.set v b ≠ .error .diverge := by
  unfold BitSet.set BitSet.checked
  dsimp only
  split_ifs <;> simp

theorem BitSet.len_of_set {n : ℕ} {v : Bool} {s s' : BitSet n} {b : Bit} (h : s.set v b = .ok s') :
    s'.len = s.len + 1 := by
  unfold BitSet.set BitSet.checked at h
  dsimp only at h
  split_ifs at h
  obtain rfl := Except.ok.inj h
  rfl

variable {T B R α β : Type} [Bracket B] [DecidableEq T] [DecidableEq B]

section Programs

variable {t : T} {c : B} {i : Index B} {cfg : Config} {r : Rights B R} {m m' : Mem T B R}

/-- A plain access leaves the words. -/
theorem Mem.word_of_plain {act : Act T B R β} {b : β} {o : Obj B α} (hact : act.plain = true)
    (h : Mem.handle β act m = .ok (b, m')) : m'.word o = m.word o := by
  cases act with
  | storeWord | casWord => cases hact
  | check q e =>
    rw [Mem.handle] at h
    split at h
    · obtain ⟨-, rfl⟩ := ok_inj h
      rfl
    · cases h
  | panic e => cases h
  | _ =>
    obtain ⟨-, rfl⟩ := ok_inj h
    cases o <;> rfl

theorem Mem.stops_of_by {act : Act T B R β} {e : Panic} (hact : act.By t r) (hr : ¬ r.diverge)
    (h : Mem.handle β act m = .error e) : e ≠ .diverge := by
  cases act with
  | casWord =>
    rw [Mem.handle] at h
    split at h <;> cases h
  | check q e' =>
    rw [Mem.handle] at h
    split at h
    · cases h
    · obtain rfl := Except.error.inj h
      exact fun he => hr (hact he)
  | panic e' =>
    obtain rfl := Except.error.inj h
    exact fun he => hr (hact he)
  | _ => cases h

/-- Alone, the program runs through all its loops, from any memory: `update` goes once through
its own. -/
theorem Built.alone {p : Code T B R α} (hp : Built t r p) (hr : ¬ r.diverge) (m : Mem T B R) :
    wp Mem.handle p (fun _ _ => True) (· ≠ .diverge) m := by
  induction hp generalizing m with
  | pure a => trivial
  | lift hact =>
    exact wp_mono (Only.wp (f := fun _ => ()) (.lift hact) (fun _ _ _ _ _ _ _ => rfl)
      fun _ _ _ _ hact => Mem.stops_of_by hact hr) (fun _ _ _ => trivial) fun _ he => he
  | bind _ _ ihp ihf =>
    exact (wp_bind _ _).mpr (wp_mono (ihp m) (fun b m' _ => ihf b m') fun _ he => he)
  | @update _ _ _ o _ _ hnext _ =>
    refine wp_update (wp_mono (Only.wp (f := fun m => m.word o) (hnext _ _)
      (fun _ _ _ _ _ hact => Mem.word_of_plain hact.1)
      fun _ _ _ _ hact => Mem.stops_of_by hact.2 hr) (fun x m' hw => ⟨?_, ?_⟩) fun _ he => he)
    · rw [hw, Mem.announced_toHeap]
    · rcases x with _ | ⟨new, log⟩ <;> trivial

/-- `Owned::sized_to_unsized` finds the slab on its stack. -/
theorem wp_sizedToUnsized_alone {m : Mem T B R} (h : m.head (.sized t c) = some i ∨
      ∃ xs, Seg m.next (m.head (.sized t c)) xs none ∧ xs.length < walkFuel ∧ i ∈ xs) :
    wp Mem.handle (Heap.sizedToUnsized t c i) (fun _ _ => True) (· ≠ .diverge) m := by
  unfold Heap.sizedToUnsized
  rw [wp_bind, wp_loadNext, wp_bind, Stack.wp_peek, wp_bind]
  cases hwalk : m.head (.sized t c) with
  | none => simp
  | some walk =>
      rw [wp_unwrap_some]
      by_cases heq : walk = i
      · rw [if_pos heq]
        refine Built.alone (t := t) (r := { diverge := False }) ?_ id m
        exact .bind (.lift trivial) fun _ => .bind by_checkedSub fun _ => .bind (Stack.by_set rfl)
          fun _ => Stack.by_push rfl
      · rw [if_neg heq, wp_bind]
        rw [hwalk] at h
        obtain ⟨xs, hseg, hlen, hi⟩ := h.resolve_left fun hsome => heq (Option.some.inj hsome)
        obtain ⟨before, after, rfl⟩ := List.append_of_mem hi
        rcases List.eq_nil_or_concat before with rfl | ⟨before, p, rfl⟩
        · exact absurd (Option.some.inj hseg.1) heq
        · rw [List.concat_eq_append, List.append_assoc, List.singleton_append] at hseg hlen
          refine Heap.wp_findPrev hseg ?_ ?_
          · simp at hlen
            omega
          · rw [wp_bind, wp_storeNext]
            exact (Stack.by_push (r := { diverge := False }) rfl).alone id _

variable [FromState B R]

/-- What is left of `Heap::free` once the block is in the bitset. -/
theorem wp_free_rest {m : Mem T B R} {n : ℕ} (h : n ≠ 1 →
      ∃ xs, Seg m.next (m.head (.sized t c)) xs none ∧ xs.length < walkFuel ∧ i ∈ xs) :
    wp Mem.handle (do
      if n = 1 then Heap.attach t c i
      if n < count c then
        pure ()
      else
        Heap.sizedToUnsized t c i
        Heap.validateOwned cfg t
        lift (.record t (.sizedToUnsized c))
        Heap.unsizedToGlobal cfg t) (fun _ _ => True) (· ≠ .diverge) m := by
  -- the slab is on top of its stack now, or was on it
  have hretire : ∀ m' : Mem T B R, (m'.head (.sized t c) = some i ∨
      ∃ xs, Seg m'.next (m'.head (.sized t c)) xs none ∧ xs.length < walkFuel ∧ i ∈ xs) →
      wp Mem.handle (if n < count c then pure () else do
        Heap.sizedToUnsized t c i
        Heap.validateOwned cfg t
        lift (.record t (.sizedToUnsized c))
        Heap.unsizedToGlobal cfg t) (fun _ _ => True) (· ≠ .diverge) m' := fun m' h' => by
    rw [wp_ite]
    split_ifs
    · trivial
    · rw [wp_bind]
      refine wp_mono (wp_sizedToUnsized_alone h') (fun _ m'' _ => ?_) fun _ he => he
      refine Built.alone (t := t) (r := { diverge := False }) ?_ id m''
      exact .bind Heap.by_validateOwned fun _ => .bind (.lift trivial) fun _ =>
        Heap.by_unsizedToGlobal trivial fun _ => trivial
  by_cases hone : n = 1
  · rw [if_pos hone, wp_bind, Heap.attach, wp_bind, wp_record, Stack.wp_push]
    exact hretire _ (.inl (update_self ..))
  · rw [if_neg hone]
    exact hretire m (.inr (h hone))

/-- `Heap::free`, of a block whose slab is on its stack if it has a free block. -/
theorem wp_free_alone {m : Mem T B R} {offset : Offset B}
    (hstack : ∀ i, offset.intoIndex = some i → m.owner i = some t →
      ∃ xs, Seg m.next (m.head (.sized t (m.sizeClass i))) xs none ∧ xs.length < walkFuel ∧
        ((m.bits i).len ≠ 0 → i ∈ xs)) :
    wp Mem.handle (Heap.free cfg t offset) (fun _ _ => True) (· ≠ .diverge) m := by
  unfold Heap.free
  rw [wp_bind]
  cases hindex : offset.intoIndex with
  | none => simp
  | some i =>
      rw [wp_unwrap_some, wp_bind, wp_loadOwner, wp_ite]
      split_ifs with howner
      · exact (Heap.by_freeRemote (r := { diverge := False }) trivial (fun _ => trivial)
          fun _ => trivial).alone id m
      · obtain ⟨xs, hseg, hlen, hi⟩ := hstack i hindex (not_not.mp howner)
        rw [wp_bind, wp_loadClass, wp_bind]
        cases offset.intoBlock (m.sizeClass i) with
        | none =>
            show Panic.divideByZero ≠ .diverge
            simp
        | some b =>
            show wp Mem.handle (pure b) _ _ _
            rw [wp_pure, wp_bind, wp_record, wp_bind, Heap.log, wp_storeLog, wp_bind, wp_loadBits,
              wp_bind]
            cases hset : (m.bits i).set cfg.validate b with
            | error e =>
                rw [wp_ofExcept_error]
                exact fun he => BitSet.set_ne_diverge (hset.trans (by rw [he]))
            | ok free =>
                rw [wp_ofExcept_ok, wp_bind, wp_storeBits]
                exact wp_free_rest fun hone => ⟨xs, hseg, hlen, hi fun hzero => hone (by
                  rw [BitSet.len_of_set hset, hzero])⟩

end Programs

/-! ### Calls -/

namespace HeapMem

variable {cfg : Config} {t : T} {c : B} {i : Index B} {m : HeapMem T B}

/-- A call begins with the memory as it is. -/
theorem toMem_enter {call : (system (T := T) (B := B) cfg).Call} :
    ((system cfg).enter t call m).toMem = m.toMem := by
  cases call with
  | allocate c => rfl
  | free offset c =>
      show (m.setBlock offset c (.thread t)).toMem = m.toMem
      unfold setBlock
      split <;> rfl

/-- A program of the heap does the same to the memory. -/
theorem wp_hoist_heap {p : HeapCode T B α} {E : Panic → Prop}
    (hp : wp Mem.handle p (fun _ _ => True) E m.toMem) :
    wp (handle cfg t) (p.hoist fun _ => .heap) (fun _ _ => True) E m := by
  refine Prog.wp_hoist (f := HeapMem.toMem) (fun β act x b m' hact => ?_)
    (fun β act x e hact => ?_) hp
  · refine ⟨{ x with toMem := m' }.note cfg t act b, ?_, toMem_note⟩
    rw [handle, hact]
  · rw [handle, hact]

omit [DecidableEq B] in
/-- A thread at rest finds a slab it has carved on its stack, if the slab has a free block. -/
theorem Rest.stack_of_owner [LawfulBracket B] (hrest : Rest t m) (hm : m.Sound) {offset : Offset B}
    (hlive : (offset, c) ∈ m.live) (hi : offset.intoIndex = some i) (howner : m.owner i = some t) :
    ∃ xs, Seg m.next (m.head (.sized t (m.sizeClass i))) xs none ∧ xs.length < walkFuel ∧
      ((m.bits i).len ≠ 0 → i ∈ xs) := by
  obtain ⟨L, hseg, -, -, hsized⟩ := hrest.stacks hm
  have hplace : m.place i = .sized t := by
    rcases hm.carved_of_live hlive hi with ⟨u, hp⟩ | hp
    · have hu : m.owner i = some u := (hm.slab i).owner u hp
      obtain rfl := Option.some.inj (howner.symm.trans hu)
      exact hp
    · have hnone : m.owner i = none := (hm.slab i).disowned hp
      rw [howner] at hnone
      cases hnone
  refine ⟨L (some (m.sizeClass i)), hseg (some (m.sizeClass i)), ?_, fun hlen => ?_⟩
  · refine Tracked.length_lt_walkFuel (hseg _).nodup fun j hj => ?_
    have hfresh : m.place j ≠ .fresh := by
      rw [((hsized _ j).mp hj).1]
      simp
    have hbound := hm.bound
    rw [Ne, hm.fresh] at hfresh
    omega
  · have hvalid : (m.bits i).validate = true := (hm.slab i).valid t hplace
    rw [BitSet.len_eq_card hvalid] at hlen
    obtain ⟨b, hb⟩ := Finset.card_pos.mp (Nat.pos_of_ne_zero hlen)
    exact (hsized _ i).mpr ⟨hplace, rfl, b, ((hm.slab i).mem_bits t hplace b).mp hb⟩

/-- Alone, a call runs through all its loops. -/
theorem wp_call [LawfulBracket B] (hm : m.Sound) (hrest : Rest t m)
    {call : (system (T := T) (B := B) cfg).Call} (hlegal : (system cfg).legal t call m) :
    wp (handle cfg t) ((system cfg).code t call) (fun _ _ => True) (· ≠ .diverge)
      ((system cfg).enter t call m) := by
  have henter : ((system cfg).enter t call m).toMem = m.toMem := toMem_enter
  cases call with
  | allocate c =>
      show wp _ (Prog.hoist _ (Heap.allocateBlock cfg t c) >>= _) _ _ m
      rw [wp_bind]
      refine wp_mono (wp_hoist_heap (Heap.by_allocateBlock.alone id _)) (fun r m' _ => ?_) fun _ he => he
      cases r with
      | none => trivial
      | some offset => trivial
  | free offset c =>
      refine wp_hoist_heap ?_
      rw [henter]
      exact wp_free_alone fun i hi => hrest.stack_of_owner hm hlegal hi

variable [LawfulBracket B]

/-- **Nobody can be in the way of a call.**  In every state that can be reached, with the other
threads in the middle of whatever they do, a thread that makes a call and then runs alone comes to
the end of it, unless `bump` has no index left or the next version is one that another thread
still has in its hands. -/
theorem alone_completes (hbatch : cfg.batchBump % 2 ^ 32 ≠ 0) (hvalidate : cfg.validate = false)
    (hglobal : 1 ≤ cfg.batchGlobal) (hcache : cfg.batchGlobal ≤ cfg.cacheLocal + 1)
    {w : Pool T (HeapAct T B) (HeapMem T B)}
    (hrun : ReflTransGen (Pool.Steps (system cfg) Fresh) (Pool.idle zeroed) w)
    (hidle : w.prog t = .ret ()) {call : (system (T := T) (B := B) cfg).Call}
    (hlegal : (system cfg).legal t call w.mem) :
    ∃ w', ReflTransGen (Pool.Step (system cfg) Fresh t)
        { mem := (system cfg).enter t call w.mem,
          prog := update w.prog t ((system cfg).code t call) } w' ∧
      w'.Halts (system cfg) Fresh t (· = .indexOverflow) := by
  have hgood := good_of_run hbatch hrun
  have hcall := (hgood.step (calls_allocating hbatch) trivial (.call call hidle hlegal)).1
  have hcalm := wp_call hgood.inv (hgood.rest trivial hidle) hlegal
  obtain ⟨w', halone, hend⟩ :=
    hcall.alone (calls_allocating hbatch) (fun _ _ _ h => h) trivial (update_self ..) hcalm
  refine ⟨w', halone, hend.imp_right ?_⟩
  rintro ⟨β, act, k, hprog, hguard | ⟨e, ⟨hstops, hne⟩, hact⟩⟩
  · exact ⟨β, act, k, hprog, .inl hguard⟩
  · obtain rfl := (hstops hvalidate hglobal hcache).resolve_left hne
    exact ⟨β, act, k, hprog, .inr ⟨_, rfl, hact⟩⟩

set_option maxRecDepth 4000 in
/-- One thread has stopped before it raises the bump index, and the other allocates. -/
theorem alone_completes_beside :
    ∃ w : Pool (Fin 2) (HeapAct (Fin 2) Large) (HeapMem (Fin 2) Large),
      ReflTransGen (Pool.Steps (system (.initial false)) Fresh) (Pool.idle zeroed) w ∧
      (∃ (β : Type) (act : HeapAct (Fin 2) Large β) (k : β → Prog (HeapAct (Fin 2) Large) Unit),
        w.prog 1 = .step act k) ∧
      ∃ w', ReflTransGen (Pool.Step (system (.initial false)) Fresh 0)
          { mem := (system (.initial false)).enter 0 (.allocate ⟨8⟩) w.mem,
            prog := update w.prog 0 ((system (.initial false)).code 0 (.allocate ⟨8⟩)) } w' ∧
        w'.Halts (system (.initial false)) Fresh 0 (· = .indexOverflow) := by
  have h₀ : ReflTransGen (Pool.Steps (system (T := Fin 2) (B := Large) (.initial false)) Fresh)
    (Pool.idle zeroed) (Pool.idle zeroed) := .refl
  have h₁ := Pool.play_trans h₀ [.call 1 (.allocate ⟨8⟩), .go 1 6] rfl
  exact ⟨_, h₁, ⟨_, _, _, rfl⟩,
    alone_completes (by decide) rfl le_rfl le_rfl h₁ rfl trivial⟩

end HeapMem

end Cxlalloc
