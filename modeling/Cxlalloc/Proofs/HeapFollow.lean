/-
The slab heap under every interleaving: the calls of a thread, followed with its view.

From here on there is one thread only.  Its programs are followed access by access, as `View.pre`
allows, and each transition of a slab is shown to leave the thread's stacks in order (`View.Ok`):
the chains by the surgeries of `Lib.Chains`, and who is on them by what happened to the one slab
that moved.
-/
import Cxlalloc.Proofs.HeapProtocol
import Cxlalloc.Proofs.HeapStacks

namespace Cxlalloc

open Lib
open Lib.Prog
open Cxlalloc.Bracket
open Function

namespace View

variable {T B α β : Type} [Bracket B] [DecidableEq B] {t : T} {cfg : Config}
  {v v' : View T B} {i : Index B} {L : Option B → List (Index B)} {Q : Unit → View T B → Prop}

/-! ### Small programs -/

theorem monotone_pre : Local.Monotone (pre cfg t : Local (Access T B) (View T B)) :=
  fun β act => HeapMem.monotone_preAct β (.heap act)

variable {s : BitSet (rows B)}

section Small

variable {Q : α → View T B → Prop}

theorem follow_panic {e : Panic} (he : cfg.Stops e) :
    (panic e : HeapCode T B α).follow (pre cfg t) Q v :=
  he

/-- Builds with checks may stop in any way. -/
theorem follow_check {e : Panic} (hcfg : cfg.validate = true) :
    (panic e : HeapCode T B α).follow (pre cfg t) Q v :=
  follow_panic fun h => by simp [hcfg] at h

theorem follow_unwrap {o : Option α} {a : α} (ho : o = some a) (h : Q a v) :
    (unwrap o : HeapCode T B α).follow (pre cfg t) Q v := by
  rw [ho]
  exact h

/-- `unwrap`, where a `None` is not the thread's fault. -/
theorem follow_unwrap_or {o : Option α} (ho : o = none → cfg.Stops .unwrapNone)
    (h : ∀ a, o = some a → Q a v) :
    (unwrap o : HeapCode T B α).follow (pre cfg t) Q v := by
  cases o with
  | none => exact follow_panic (ho rfl)
  | some a => exact h a rfl

theorem follow_checkedSub {a b : ℕ} {Q : ℕ → View T B → Prop} (hle : b ≤ a) (h : Q (a - b) v) :
    (checkedSub a b : HeapCode T B ℕ).follow (pre cfg t) Q v := by
  unfold checkedSub
  rw [if_pos hle]
  exact h

theorem follow_checkedSub_or {a b : ℕ} {Q : ℕ → View T B → Prop} (hlt : a < b → cfg.Stops .overflow)
    (h : Q (a - b) v) : (checkedSub a b : HeapCode T B ℕ).follow (pre cfg t) Q v := by
  unfold checkedSub
  split_ifs with hle
  · exact h
  · exact follow_panic (hlt (Nat.lt_of_not_le hle))

theorem follow_loadNext {k : Option (Index B) → HeapCode T B α} (hi : v.place i ≠ .away)
    (h : (k (v.next i)).follow (pre cfg t) Q v) :
    (lift (.loadNext i) >>= k).follow (pre cfg t) Q v :=
  ⟨fun _ => h, fun ha => absurd ha hi⟩

theorem follow_loadOwner {k : Option T → HeapCode T B α} (hi : v.place i ≠ .away)
    (h : v.Known t i → (k (v.owner i)).follow (pre cfg t) Q v) :
    (lift (.loadOwner i) >>= k).follow (pre cfg t) Q v :=
  ⟨fun _ => h, fun ha => absurd ha hi⟩

theorem follow_loadClass {k : B → HeapCode T B α} (hi : v.place i ≠ .away)
    (h : v.Known t i → (k (v.sizeClass i)).follow (pre cfg t) Q v) :
    (lift (.loadClass i) >>= k).follow (pre cfg t) Q v :=
  ⟨fun _ => h, fun ha => absurd ha hi⟩

theorem follow_loadBits {k : BitSet (rows B) → HeapCode T B α} (hi : v.place i ≠ .away)
    (h : v.Known t i → (k (v.bits i)).follow (pre cfg t) Q v) :
    (lift (.loadBits i) >>= k).follow (pre cfg t) Q v :=
  ⟨hi, h⟩

theorem follow_loadOwner_away {k : Option T → HeapCode T B α} {b : ℕ} {c : B}
    (hi : v.place i = .away) (hhand : v.hand = some ⟨i, b, c⟩)
    (h : ∀ o, o ≠ some t → (k o).follow (pre cfg t) Q v) :
    (lift (.loadOwner i) >>= k).follow (pre cfg t) Q v :=
  ⟨fun hp => absurd hi hp, fun _ o ho => h o (ho ⟨b, c, hhand⟩)⟩

theorem follow_loadClass_away {k : B → HeapCode T B α} (hi : v.place i = .away)
    (h : ∀ c, (k c).follow (pre cfg t) Q v) : (lift (.loadClass i) >>= k).follow (pre cfg t) Q v :=
  ⟨fun hp => absurd hi hp, fun _ => h⟩

variable {k : Unit → HeapCode T B α}

theorem follow_storeOwner {o : Option T} (hi : v.place i = .unsized)
    (h : (k ()).follow (pre cfg t) Q { v with owner := update v.owner i o }) :
    (lift (.storeOwner i o) >>= k).follow (pre cfg t) Q v :=
  .inl ⟨hi, h⟩

/-- A write to the bitset of a carved slab takes a block out. -/
theorem follow_take {b : ℕ}
    (hi : v.place i = .sized) (hs : s.validate = true) (hb : b ∈ (v.bits i).elems)
    (hhand : v.hand = none) (helems : s.elems = (v.bits i).elems.erase b)
    (h : (k ()).follow (pre cfg t) Q { v with
      bits := update v.bits i s
      hand := some ⟨i, b, v.sizeClass i⟩ }) :
    (lift (.storeBits i s) >>= k).follow (pre cfg t) Q v :=
  .inr ⟨hi, hs, .inl ⟨b, hb, hhand, helems, h⟩⟩

/-- Or puts one back. -/
theorem follow_put {b : ℕ} {c : B} (hi : v.place i = .sized) (hs : s.validate = true)
    (hhand : v.hand = some ⟨i, b, c⟩) (helems : s.elems = insert b (v.bits i).elems)
    (h : (k ()).follow (pre cfg t) Q { v with bits := update v.bits i s, hand := none }) :
    (lift (.storeBits i s) >>= k).follow (pre cfg t) Q v :=
  .inr ⟨hi, hs, .inr ⟨b, c, hhand, helems, h⟩⟩

theorem follow_record {u : T} {e : Event B} :
    (lift (.record u e) >>= k).follow (pre cfg t) Q v ↔ (k ()).follow (pre cfg t) Q v := Iff.rfl

theorem follow_log {state : HeapState B} :
    (Heap.log t state >>= k).follow (pre cfg t) Q v ↔ (k ()).follow (pre cfg t) Q v :=
  and_iff_right rfl

end Small

/-! ### Detectable words -/

section Detectable

variable {o : Obj B α} {w : Word T α}

theorem follow_help (h : Q () v) :
    (Detectable.help t w : HeapCode T B Unit).follow (pre cfg t) Q v := by
  unfold Detectable.help
  split
  · exact h
  · exact ⟨rfl, h⟩

theorem follow_load {Q : α → View T B → Prop}
    (h : v.pre cfg t _ (.loadWord o) fun w v' => Q w.inner v') :
    (Detectable.load t o : HeapCode T B α).follow (pre cfg t) Q v := by
  unfold Detectable.load
  rw [follow_access]
  refine monotone_pre _ (.loadWord o) _ _ v (fun w v' hw => ?_) h
  rw [follow_bind]
  exact follow_help hw

theorem follow_store_remote {x : Remote}
    (hi : v.place i = .unsized) (hclass : isZero (v.sizeClass i) = false)
    (howner : v.owner i = some t) (hvalid : (v.bits i).validate = true)
    (helems : (v.bits i).elems = Finset.range (count (v.sizeClass i)))
    (hx : x.free = count (v.sizeClass i)) (h : Q () { v with place := update v.place i .sized }) :
    (Detectable.store t (.remote i) x : HeapCode T B Unit).follow (pre cfg t) Q v := by
  unfold Detectable.store
  rw [follow_access]
  intro w _
  rw [follow_bind]
  exact follow_help ⟨hi, hclass, howner, hvalid, helems, hx, h⟩

variable {next : α → Version → HeapCode T B (Option (α × HeapState B))}
  {I : Word T α → View T B → Prop}

/-- The loop of `update`: `I` is what is known with the word that was read. -/
theorem follow_updateLoop {version : Version} {n : ℕ} {Q : Option α → View T B → Prop}
    (hround : ∀ w v, I w v → (next w.inner version).follow (pre cfg t) (fun r v' =>
      (r = none → Q none v') ∧ ∀ p, r = some p → v'.pre cfg t _
        (.casWord o w { id := some t, version := version, inner := p.1 }) fun r v'' =>
          (r = none → Q (some w.inner) v'') ∧ ∀ w', r = some w' → I w' v'') v)
    (hv : I w v) : (Detectable.updateLoop t o version next n w).follow (pre cfg t) Q v := by
  induction n generalizing w v with
  | zero => exact follow_panic fun _ _ _ => .inl rfl
  | succ n ih =>
    rw [Detectable.updateLoop, follow_bind]
    refine follow_help ?_
    rw [follow_bind]
    refine follow_mono monotone_pre (hround w v hv) fun r v' hr => ?_
    cases r with
    | none => exact hr.1 rfl
    | some p =>
      refine ⟨rfl, monotone_pre _ (.casWord o w _) _ _ v' (fun r v'' hr' => ?_) (hr.2 p rfl)⟩
      cases r with
      | none => exact hr'.1 rfl
      | some w' => exact ih (hr'.2 w' rfl)

theorem follow_update {retry : ℕ} {Q : Option α → View T B → Prop}
    (hload : v.pre cfg t _ (.loadWord o) I)
    (hround : ∀ version w v, I w v → (next w.inner version).follow (pre cfg t) (fun r v' =>
      (r = none → Q none v') ∧ ∀ p, r = some p → v'.pre cfg t _
        (.casWord o w { id := some t, version := version, inner := p.1 }) fun r v'' =>
          (r = none → Q (some w.inner) v'') ∧ ∀ w', r = some w' → I w' v'') v) :
    (Detectable.update retry t o next).follow (pre cfg t) Q v := by
  unfold Detectable.update
  rw [follow_access]
  intro n
  exact ⟨rfl, monotone_pre _ (.loadWord o) _ _ v
    (fun w v' hw => follow_updateLoop (hround n.next) hw) hload⟩

end Detectable

/-! ### Stacks -/

variable {x : Option (Index B)}

section Stacks

variable {c : B}

theorem follow_peek {Q : Option (Index B) → View T B → Prop} (k : Option B) (h : Q (v.head k) v) :
    (Stack.peek (.of t k) : HeapCode T B _).follow (pre cfg t) Q v :=
  ⟨k, rfl, h⟩

/-- `Local::push` to the stack of a class. -/
theorem follow_push_sized (hi : v.place i ≠ .away)
    (h : Q () { v with
      next := update v.next i (v.head (some c))
      head := update v.head (some c) (some i)
      len := update v.len (some c) (v.len (some c) + 1) }) :
    (Stack.push (.sized t c) i : HeapCode T B Unit).follow (pre cfg t) Q v := by
  unfold Stack.push
  exact ⟨some c, rfl, hi, rfl, some c, rfl, some c, rfl, h⟩

/-- `Local::push` to the unsized stack, of a slab that is the thread's own. -/
theorem follow_push_unsized (hi : v.place i = .unsized)
    (h : Q () { v with
      next := update v.next i (v.head none)
      head := update v.head none (some i)
      len := update v.len none (v.len none + 1) }) :
    (Stack.push (.unsized t) i : HeapCode T B Unit).follow (pre cfg t) Q v := by
  unfold Stack.push
  exact ⟨none, rfl, by simp [hi], rfl, .inl ⟨hi, none, rfl, none, rfl, h⟩⟩

/-- The same for a slab that has all its blocks. -/
theorem follow_push_full (hi : v.place i = .sized)
    (helems : (v.bits i).elems = Finset.range (count (v.sizeClass i)))
    (h : Q () { v with
      next := update v.next i (v.head none)
      head := update v.head none (some i)
      len := update v.len none (v.len none + 1)
      place := update v.place i .unsized }) :
    (Stack.push (.unsized t) i : HeapCode T B Unit).follow (pre cfg t) Q v := by
  unfold Stack.push
  exact ⟨none, rfl, by simp [hi], rfl, .inr ⟨hi, helems, none, rfl, none, rfl, h⟩⟩

/-- `Local::set` of the stack of a class. -/
theorem follow_set_sized {n : ℕ}
    (h : Q () { v with head := update v.head (some c) x, len := update v.len (some c) n }) :
    (Stack.set (.sized t c) x n : HeapCode T B Unit).follow (pre cfg t) Q v :=
  ⟨rfl, some c, rfl, h⟩

/-- `Local::set` of the unsized stack. -/
theorem follow_set_unsized {n : ℕ} (hx : ∀ i, x = some i → v.place i = .unsized)
    (h : Q () { v with head := update v.head none x, len := update v.len none n }) :
    (Stack.set (.unsized t) x n : HeapCode T B Unit).follow (pre cfg t) Q v := by
  cases x with
  | none => exact ⟨rfl, none, rfl, h⟩
  | some i => exact ⟨rfl, .inl ⟨hx i rfl, none, rfl, h⟩⟩

/-- `Local::pop` of the stack of a class. -/
theorem follow_pop {Q : Option (Index B) → View T B → Prop}
    (hi : v.head (some c) = some i) (hp : v.place i ≠ .away) (hlen : 1 ≤ v.len (some c))
    (h : Q (some i) { v with
      head := update v.head (some c) (v.next i)
      len := update v.len (some c) (v.len (some c) - 1) }) :
    (Stack.pop (.sized t c) : HeapCode T B _).follow (pre cfg t) Q v := by
  unfold Stack.pop
  refine ⟨some c, rfl, ?_⟩
  rw [hi]
  refine follow_loadNext hp ⟨rfl, some c, rfl, ?_⟩
  show (checkedSub (v.len (some c)) 1 >>= _).follow _ _ _
  rw [follow_bind]
  exact follow_checkedSub hlen ⟨some c, rfl, h⟩

end Stacks

/-! ### Transitions of a slab -/

section Transitions

variable [DecidableEq T] [LawfulBracket B] {h : Option (Hand B)} {c : B}

omit [DecidableEq T] in
/-- `Owned::unsized_to_sized`. -/
theorem follow_unsizedToSized {Q : Bool → View T B → Prop} (hc : isZero c = false)
    (hv : v.Good t h) (hfalse : v.head none = none → Q false v)
    (htrue : ∀ v', v'.Good t h → Q true v') :
    (Heap.unsizedToSized t c : HeapCode T B Bool).follow (pre cfg t) Q v := by
  unfold Heap.unsizedToSized
  show (Stack.peek (.of t none) >>= _).follow _ _ _
  rw [follow_bind]
  refine follow_peek none ?_
  cases hi : v.head none with
  | none => exact hfalse hi
  | some i =>
    obtain ⟨⟨L, hok⟩, hhand⟩ := hv
    have hp : v.place i = .unsized := hok.unsized_of_head hi
    have hcount := LawfulBracket.count_le (B := B) c
    have helems : ((v.bits i).fill (count c)).elems = Finset.range (count c) :=
      BitSet.elems_fill hcount
    refine follow_loadNext (by simp [hp]) ?_
    refine ⟨rfl, hp, by simp [hp], fun _ => .inl ⟨hp, ?_⟩⟩
    show (Stack.push (.sized t c) i >>= _).follow _ _ _
    rw [follow_bind]
    refine follow_push_sized (by simp [hp]) ?_
    show (Detectable.store t (.remote i) _ >>= _).follow _ _ _
    rw [follow_bind]
    refine follow_store_remote hp (by simpa using hc) (hok.owner i hp) ?_ ?_ ?_ ?_
    · simp [BitSet.validate_fill LawfulBracket.rows_le hcount]
    · simp [helems]
    · simp
    · refine ⟨none, rfl, ?_⟩
      show (checkedSub (v.len none) 1 >>= _).follow _ _ _
      rw [follow_bind]
      refine follow_checkedSub (hok.len_pos hi) ?_
      show (Stack.set (.unsized t) _ _ >>= _).follow _ _ _
      rw [follow_bind]
      refine follow_set_unsized (fun j hj => ?_) (htrue _ ⟨⟨_, hok.carve hi ?_⟩, hhand⟩)
      · -- the next slab of the unsized stack is another one
        obtain ⟨hne, hj⟩ := hok.next_of_head hi hj
        simp [hne, hj]
      · rw [helems]
        simpa using (LawfulBracket.count_pos c hc).ne'

omit [LawfulBracket B] [DecidableEq T] in
/-- The search for the slab before `i`, which is further down the stack. -/
theorem follow_findPrev {n : ℕ} {walk : Index B} {before after : List (Index B)}
    {Q : Index B → View T B → Prop} (hok : v.Ok t L) (hl : L (some c) = before ++ walk :: after)
    (hi : i ∈ after) (hQ : ∀ p before after, L (some c) = before ++ p :: i :: after → Q p v) :
    (Heap.findPrev i n walk : HeapCode T B _).follow (pre cfg t) Q v := by
  induction n generalizing walk before after with
  | zero => exact follow_panic fun _ _ _ => .inl rfl
  | succ n ih =>
    have hp := ((hok.sized c walk).mp (by simp [hl])).1
    have hnext : v.next walk = after.head? := by
      have hseg := hok.chains.seg (some c)
      rw [hl] at hseg
      exact hseg.next_eq
    refine follow_loadNext (by simp [hp]) ?_
    rw [hnext]
    cases after with
    | nil => simp at hi
    | cons j after =>
      show (if j = i then pure walk else Heap.findPrev i n j).follow _ _ _
      rw [follow_ite]
      split_ifs with hj
      · subst hj
        exact hQ walk before after hl
      · have hi : i ∈ after := (List.mem_cons.mp hi).resolve_left (Ne.symm hj)
        have hl' : L (some c) = (before ++ [walk]) ++ j :: after := by
          rw [hl, List.append_assoc, List.singleton_append]
        exact ih hl' hi

omit [LawfulBracket B] [DecidableEq T] in
/-- `Owned::sized_to_unsized`. -/
theorem follow_sizedToUnsized (hok : v.Ok t L) (hhand : v.hand = h)
    (hi : i ∈ L (some c)) (howner : v.owner i = some t)
    (helems : (v.bits i).elems = Finset.range (count (v.sizeClass i)))
    (hQ : ∀ v' L', v'.Ok t L' → L' none ≠ [] → v'.hand = h → Q () v') :
    (Heap.sizedToUnsized t c i : HeapCode T B Unit).follow (pre cfg t) Q v := by
  have hp := ((hok.sized c i).mp hi).1
  have hmoved : Chains.move L i (some c) none none ≠ [] := by simp [Chains.move]
  unfold Heap.sizedToUnsized
  refine follow_loadNext (by simp [hp]) ?_
  show (Stack.peek (.of t (some c)) >>= _).follow _ _ _
  rw [follow_bind]
  refine follow_peek (some c) ?_
  rw [follow_bind]
  obtain ⟨walk, xs, hl⟩ := List.exists_cons_of_ne_nil (List.ne_nil_of_mem hi)
  have hwalk : v.head (some c) = some walk := by rw [hok.chains.head_eq, hl]; rfl
  refine follow_unwrap hwalk ?_
  split_ifs with heq
  · subst heq
    refine ⟨some c, rfl, ?_⟩
    show (checkedSub (v.len (some c)) 1 >>= _).follow _ _ _
    rw [follow_bind]
    refine follow_checkedSub (hok.len_pos hwalk) ?_
    show (Stack.set (.sized t c) _ _ >>= _).follow _ _ _
    rw [follow_bind]
    refine follow_set_sized ?_
    refine follow_push_full hp helems (hQ _ (Chains.move L walk (some c) none) ?_ hmoved hhand)
    exact hok.retire hi howner (hok.chains.move_head hl (by simp)) (hok.len_move hi (by simp))
  · rw [follow_bind]
    have hi' : i ∈ xs := by
      rw [hl] at hi
      exact (List.mem_cons.mp hi).resolve_left (Ne.symm heq)
    have hsplit : L (some c) = [] ++ walk :: xs := hl
    refine follow_findPrev hok hsplit hi' fun p before after hl' => ?_
    have hpp := ((hok.sized c p).mp (by simp [hl'])).1
    refine ⟨by simp [hpp], ?_⟩
    refine follow_push_full hp helems (hQ _ (Chains.move L i (some c) none) ?_ hmoved hhand)
    exact hok.retire hi howner (hok.chains.move_mid hl' (by simp)) (hok.len_move_mid hi (by simp))

end Transitions

/-! ### Slabs that come -/

/-- `Local::own`. -/
theorem follow_own (hi : v.place i = .unsized)
    (h : Q () { v with owner := update v.owner i (some t) }) :
    (Slab.own cfg t i : HeapCode T B Unit).follow (pre cfg t) Q v := by
  unfold Slab.own
  cases hcfg : cfg.validate with
  | false => exact .inl ⟨hi, h⟩
  | true =>
    rw [if_pos rfl]
    refine follow_loadOwner (by simp [hi]) fun _ => ?_
    split_ifs
    · rw [follow_bind]
      exact follow_check hcfg
    · exact .inl ⟨hi, h⟩

/-- `Slab::link`. -/
theorem follow_link {n : ℕ}
    (hown : ∀ j ∈ i.run n, v.place j = .unsized) (h : Q () (v.linked t n i)) :
    (Slab.link cfg t none n i : HeapCode T B Unit).follow (pre cfg t) Q v := by
  induction n generalizing i v with
  | zero =>
    rw [linked_zero] at h
    exact h
  | succ n ih =>
    have hi : v.place i = .unsized := hown i (by simp [Index.run])
    rw [Slab.link, follow_bind]
    refine follow_own hi ⟨by simp [hi], ih (fun j hj => hown j (by simp [Index.run, hj])) ?_⟩
    rw [← linked_succ] at h
    exact h

theorem follow_addIndex {n : ℕ} {Q : Index B → View T B → Prop}
    (h : ∀ j, j.value = i.value + n → j.value < 2 ^ 32 → Q j v) :
    (Heap.addIndex i n : HeapCode T B _).follow (pre cfg t) Q v := by
  unfold Heap.addIndex Index.add
  split_ifs with hlt
  · exact h _ rfl hlt
  · exact follow_panic fun _ _ _ => .inr rfl

/-- `Shared::bump`. -/
theorem follow_bumpRange {Q : Index B × Index B → View T B → Prop}
    (hQ : ∀ start finish v', finish.value = start.value + cfg.batchBump % 2 ^ 32 →
      v.Gains {j | start.value ≤ j.value ∧ j.value < finish.value} v' → Q (start, finish) v') :
    (Heap.bumpRange cfg t : HeapCode T B _).follow (pre cfg t) Q v := by
  unfold Heap.bumpRange
  show (Detectable.update cfg.retry t .bump _ >>= _).follow _ _ _
  rw [follow_bind]
  refine follow_update (I := fun _ v' => v' = v) (fun w => rfl) fun version w v' hv' => ?_
  subst hv'
  rw [follow_bind]
  refine follow_addIndex fun new hnew hlt => ⟨by simp, ?_⟩
  rintro _ ⟨⟩
  refine ⟨fun w' => ⟨by simp, fun _ _ => rfl⟩, ?_, hlt, fun v' hgains => ⟨fun _ => ?_, by simp⟩⟩
  · show (w.inner.getD .min).value ≤ new.value
    omega
  · rw [follow_bind]
    refine follow_unwrap rfl ?_
    rw [follow_bind]
    refine follow_addIndex fun finish hfinish _ => hQ _ _ _ hfinish ?_
    obtain rfl : new = finish := Index.ext (hnew.trans hfinish.symm)
    exact hgains

/-- `Shared::pop`. -/
theorem follow_sharedPop {Q : Option (Index B) → View T B → Prop}
    (hnone : ∀ seen link, Q none { v with seen := seen, link := link })
    (hsome : ∀ i v', v.Gains {i} v' → Q (some i) v') :
    (Heap.sharedPop cfg t : HeapCode T B _).follow (pre cfg t) Q v := by
  unfold Heap.sharedPop Global.isEmpty
  rw [follow_bind, follow_bind]
  refine follow_load fun w _ => ?_
  simp only [follow_pure]
  split_ifs
  · exact hnone _ _
  · unfold Global.pop
    rw [follow_bind]
    refine follow_update (I := fun w v' => v.Head w ∧ v' = { v with seen := some w, link := none })
      (fun w hw => ⟨hw, rfl⟩) ?_
    rintro version w v' ⟨hhead, rfl⟩
    cases hi : w.inner with
    | none => exact ⟨fun _ => hnone _ _, by simp⟩
    | some i =>
      have haway : v.place i = .away := hhead i hi
      refine ⟨fun hp => absurd haway hp, fun _ x => ⟨by simp, ?_⟩⟩
      rintro _ ⟨⟩
      refine ⟨fun w' hw' => ⟨by simp, ?_⟩, .inr ⟨i, ⟨rfl, hi, rfl⟩, fun v' hgains => ?_⟩⟩
      · rintro _ ⟨⟩
        exact ⟨hw', rfl⟩
      · refine ⟨fun _ => ?_, by simp⟩
        exact hsome i v' { hgains with }

/-! ### Allocation -/

section Allocation

variable [DecidableEq T] [LawfulBracket B] {h : Option (Hand B)} {c : B}

omit [LawfulBracket B] in
theorem follow_validateOwned (hQ : Q () v) :
    (Heap.validateOwned cfg t : HeapCode T B Unit).follow (pre cfg t) Q v := by
  unfold Heap.validateOwned
  split_ifs with hcfg
  · exact ⟨fun h => by simp [hcfg] at h, hQ⟩
  · exact hQ

section Carve

variable {Q : Option (Index B) → View T B → Prop}
  (hQ : ∀ v' : View T B, v'.Good t h → Q (v'.head (some c)) v')

include hQ

omit [LawfulBracket B] in
theorem follow_validatePeek (hv : v.Good t h) : (do
      Heap.validateOwned cfg t
      Stack.peek (.sized t c) : HeapCode T B _).follow (pre cfg t) Q v := by
  rw [follow_bind]
  exact follow_validateOwned (follow_peek (some c) (hQ v hv))

/-- The end of `Heap::allocate`: a slab of the unsized stack is carved. -/
theorem follow_carve (hc : isZero c = false) (hv : v.Good t h) : (do
      let _ ← Heap.unsizedToSized t c
      lift (.record t (.unsizedToSized c))
      Heap.validateOwned cfg t
      Stack.peek (.sized t c) : HeapCode T B _).follow (pre cfg t) Q v := by
  rw [follow_bind]
  exact follow_unsizedToSized hc hv (fun _ => follow_validatePeek hQ hv)
    fun _ hv' => follow_validatePeek hQ hv'

/-- The same with a slab from the global stack. -/
theorem follow_adopt (hc : isZero c = false) (hv : v.Good t h) (hgains : v.Gains {i} v') : (do
      Slab.own cfg t i
      Stack.push (.unsized t) i
      let _ ← Heap.unsizedToSized t c
      lift (.record t (.unsizedToSized c))
      Heap.validateOwned cfg t
      Stack.peek (.sized t c) : HeapCode T B _).follow (pre cfg t) Q v' := by
  obtain ⟨⟨L, hok⟩, hhand⟩ := hv
  have hown : v'.place i = .unsized := hgains.gained i rfl
  rw [follow_bind]
  refine follow_own hown ?_
  rw [follow_bind]
  exact follow_push_unsized hown
    (follow_carve hQ hc ⟨⟨_, hok.adopt_one hgains⟩, hgains.hand.trans hhand⟩)

end Carve

/-- `Heap::allocate`. -/
theorem follow_allocate {Q : Option (Index B) → View T B → Prop}
    (hbatch : cfg.batchBump % 2 ^ 32 ≠ 0) (hv : v.Good t h) (hzero : Q none v)
    (hQ : ∀ v', v'.Good t h → Q (v'.head (some c)) v') :
    (Heap.allocate cfg t c : HeapCode T B _).follow (pre cfg t) Q v := by
  unfold Heap.allocate
  split_ifs with hc
  · exact hzero
  · have hc : isZero c = false := by simpa using hc
    rw [follow_bind]
    refine follow_unsizedToSized hc hv (fun hempty => ?_) fun _ => follow_validatePeek hQ
    rw [if_neg (by simp), follow_bind]
    refine follow_sharedPop (fun seen link => ?_) fun i v' hgains => ?_
    · show (Heap.bumpRange cfg t >>= _).follow _ _ _
      rw [follow_bind]
      refine follow_bumpRange fun start finish v' hfinish hgains => ?_
      have hcount : finish.value - start.value = cfg.batchBump % 2 ^ 32 := by omega
      rw [hfinish] at hgains
      show (Slab.link cfg t none (finish.value - start.value) start >>= _).follow _ _ _
      rw [follow_bind, hcount]
      refine follow_link (fun j hj => hgains.gained j (Index.mem_run.mp hj)) ?_
      show (Stack.set (.unsized t) (some start) cfg.batchBump >>= _).follow _ _ _
      rw [follow_bind]
      obtain ⟨⟨L, hok⟩, hhand⟩ := hv
      have hok' := (hok.forget v.hand seen link).adopt_range hbatch (Nat.mod_le _ _) hempty hgains
      refine follow_set_unsized (fun j hj => ?_)
        (follow_carve hQ hc ⟨⟨_, hok'⟩, hgains.hand.trans hhand⟩)
      obtain rfl := Option.some.inj hj
      exact hok'.unsized_of_head (by simp)
    · exact follow_adopt hQ hc hv hgains

/-- `Heap::peek`. -/
theorem follow_peekBlock {Q : Option (Index B × Bit) → View T B → Prop}
    (hbatch : cfg.batchBump % 2 ^ 32 ≠ 0) (hv : v.Good t h)
    (hnone : ∀ v', v'.Good t h → Q none v')
    (hsome : ∀ v' i, v'.Good t h → v'.head (some c) = some i →
      Q (some (i, (v'.bits i).peekUnchecked)) v') :
    (Heap.peek cfg t c : HeapCode T B _).follow (pre cfg t) Q v := by
  have hblock : ∀ v' i, v'.Good t h → v'.head (some c) = some i →
      (lift (.loadBits i) >>= fun free => pure (some (i, free.peekUnchecked)) :
        HeapCode T B _).follow (pre cfg t) Q v' := by
    intro v' i hv' hi
    obtain ⟨L, hok⟩ := hv'.1
    exact ⟨by simp [(hok.sized_of_head hi).1], fun _ => hsome v' i hv' hi⟩
  unfold Heap.peek
  rw [follow_bind]
  refine follow_peek (some c) ?_
  cases hi : v.head (some c) with
  | some i => exact hblock v i hv hi
  | none =>
    show (Heap.allocate cfg t c >>= _).follow _ _ _
    rw [follow_bind]
    refine follow_allocate hbatch hv (hnone v hv) fun v' hv' => ?_
    cases hi' : v'.head (some c) with
    | none => exact hnone v' hv'
    | some i => exact hblock v' i hv' hi'

omit [LawfulBracket B] in
/-- `Local::disown`. -/
theorem follow_disown (hi : v.place i ≠ .away) (h : v.pre cfg t _ (.storeOwner i none) Q) :
    (Slab.disown cfg t i : HeapCode T B Unit).follow (pre cfg t) Q v := by
  unfold Slab.disown
  cases hcfg : cfg.validate with
  | false => exact h
  | true =>
    rw [if_pos rfl]
    refine follow_loadOwner hi fun _ => ?_
    split_ifs
    · rw [follow_bind]
      exact follow_check hcfg
    · exact h

omit [LawfulBracket B] in
/-- `Heap::detach`, of a slab without free blocks. -/
theorem follow_detach (hv : v.Good t h) (hi : v.place i = .sized)
    (hempty : (v.bits i).elems = ∅) (hQ : ∀ v', v'.Good t h → Q () v') :
    (Heap.detach cfg t c i : HeapCode T B Unit).follow (pre cfg t) Q v := by
  unfold Heap.detach
  rw [follow_record, follow_bind]
  refine follow_load fun w _ => ?_
  beta_reduce
  split_ifs
  · show (Slab.disown cfg t i >>= _).follow _ _ _
    rw [follow_bind]
    obtain ⟨⟨L, hok⟩, hhand⟩ := hv
    exact follow_disown (by simp [hi])
      (.inr ⟨hi, rfl, hempty, hQ _ ⟨⟨L, hok.leave hi hempty⟩, hhand⟩⟩)
  · exact hQ v hv

/-- `Heap::pop`, of the block that `peek` has found. -/
theorem follow_popBlock {Q : Offset B → View T B → Prop} (hv : v.Good t none)
    (hi : v.head (some c) = some i)
    (hQ : ∀ v', v'.Good t (some ⟨i, (v.bits i).peekUnchecked.toNat, c⟩) →
      Q (.fromBlock c i (v.bits i).peekUnchecked) v') :
    (Heap.pop cfg t c i (v.bits i).peekUnchecked : HeapCode T B _).follow
      (pre cfg t) Q v := by
  obtain ⟨⟨L, hok⟩, hhand⟩ := hv
  obtain ⟨hp, rfl, hne⟩ := hok.sized_of_head hi
  unfold Heap.pop
  rw [follow_record]
  refine follow_loadBits (by simp [hp]) fun hknown => ?_
  have hvalid := hknown.valid hp
  obtain ⟨hrow, hmem, -⟩ := BitSet.peek_spec hvalid hne
  have helems := BitSet.elems_erased (s := v.bits i) hrow
  have hvalid' := BitSet.validate_erased_peek LawfulBracket.rows_le hvalid hne
  rw [BitSet.unset_peek_eq _ LawfulBracket.rows_le hvalid hne]
  refine follow_take hp hvalid' hmem hhand helems ?_
  split_ifs with hempty
  · rw [BitSet.isEmpty_iff hvalid'] at hempty
    rw [follow_bind]
    refine follow_pop hi (by simp [hp]) (hok.len_pos hi) ?_
    show (Heap.detach cfg t (v.sizeClass i) i >>= _).follow _ _ _
    rw [follow_bind]
    exact follow_detach ⟨⟨_, hok.detach hi hempty _⟩, rfl⟩ hp (by simp [hempty]) hQ
  · refine hQ _ ⟨⟨L, hok.rewrite (iff_of_true ?_ hne) _⟩, rfl⟩
    rw [Finset.nonempty_iff_ne_empty]
    exact fun h => hempty ((BitSet.isEmpty_iff hvalid').mpr h)

end Allocation

/-! ### Slabs that go -/

section Sharing

variable [DecidableEq T] {h : Option (Hand B)} {n : ℕ} {xs : List (Index B)} {head : Option (Index B)}

/-- The batch of `unsized_to_global` is a first part of the unsized stack. -/
theorem follow_takeBatch {Q : List (Index B) → View T B → Prop} (hseg : Seg v.next head xs none)
    (hown : ∀ j ∈ xs, v.place j = .unsized)
    (hQ : ∀ owner : Index B → Option T, (∀ j ∉ xs.take n, owner j = v.owner j) →
      Q (xs.take n) { v with owner := owner }) :
    (Heap.takeBatch cfg t n head : HeapCode T B _).follow (pre cfg t) Q v := by
  induction n generalizing v head xs Q with
  | zero => exact hQ v.owner (by simp)
  | succ n ih =>
    cases xs with
    | nil =>
      obtain rfl : head = none := hseg
      exact hQ v.owner (by simp)
    | cons i xs =>
      obtain ⟨rfl, hseg⟩ := hseg
      have hi : v.place i = .unsized := hown i (by simp)
      have hrest : ∀ j ∈ xs, v.place j = .unsized := fun j hj => hown j (by simp [hj])
      refine follow_loadNext (by simp [hi]) ?_
      split_ifs
      · rw [follow_bind]
        refine follow_disown (by simp [hi]) (.inl ⟨hi, ?_⟩)
        simp only [follow_bind]
        refine ih hseg hrest fun owner howner => hQ owner fun j hj => ?_
        rw [List.take_succ_cons, List.mem_cons, not_or] at hj
        exact (howner j hj.2).trans (update_of_ne hj.1 _ _)
      · rw [follow_bind]
        refine ih hseg hrest fun owner howner => hQ owner fun j hj => ?_
        rw [List.take_succ_cons, List.mem_cons, not_or] at hj
        exact howner j hj.2

omit [DecidableEq T] in
theorem follow_flushBatch (hseg : Seg v.next head xs none)
    (hown : ∀ j ∈ xs, v.place j = .unsized) (hQ : Q () v) :
    (Heap.flushBatch n head : HeapCode T B Unit).follow (pre cfg t) Q v := by
  induction n generalizing head xs with
  | zero => exact hQ
  | succ n ih =>
    cases xs with
    | nil =>
      obtain rfl : head = none := hseg
      exact hQ
    | cons i xs =>
      obtain ⟨rfl, hseg⟩ := hseg
      have hi : v.place i = .unsized := hown i (by simp)
      exact follow_loadNext (by simp [hi]) (ih hseg fun j hj => hown j (by simp [hj]))

omit [DecidableEq T] in
/-- `Global::push`. -/
theorem follow_globalPush {before : List (Index B)}
    {first last : Index B}
    (hseg : Seg v.next (some first) (before ++ [last]) x) (hlast : last ∉ before)
    (hlen : (before ++ [last]).length ≤ cfg.batchGlobal)
    (hown : ∀ j ∈ before ++ [last], v.place j = .unsized)
    (hQ : ∀ next : Index B → Option (Index B), (∀ j, j ≠ last → next j = v.next j) →
      Q () { v with
        next := next
        place := fun j => if j ∈ before ++ [last] then .away else v.place j
        seen := none
        link := none }) :
    (Global.push cfg t first last : HeapCode T B Unit).follow (pre cfg t) Q v := by
  unfold Global.push
  rw [follow_bind]
  refine follow_update (I := fun w v' => ∃ next : Index B → Option (Index B),
    (∀ j, j ≠ last → next j = v.next j) ∧ v' = { v with next := next, seen := some w, link := none })
    (fun w _ => ⟨v.next, fun _ _ => rfl, rfl⟩) ?_
  rintro version w v' ⟨next, hnext, rfl⟩
  have hnext' : ∀ j, j ≠ last → update next last w.inner j = v.next j := fun j hj => by
    rw [update_of_ne hj, hnext j hj]
  have hseg' : Seg (update next last w.inner) (some first) (before ++ [last]) w.inner := by
    refine (hseg.update_last hlast).congr fun j _ => ?_
    by_cases hj : j = last
    · subst hj
      rw [update_self, update_self]
    · rw [hnext' j hj, update_of_ne hj]
  refine ⟨by simp [hown last], by simp, ?_⟩
  rintro _ ⟨⟩
  refine ⟨fun w' hw' => ⟨by simp, ?_⟩, .inl ⟨before ++ [last], ⟨by simp, hlen, hseg', hown⟩, ?_⟩⟩
  · rintro _ ⟨⟩
    exact ⟨_, hnext', rfl⟩
  · exact ⟨fun _ => hQ _ hnext', by simp⟩

omit [Bracket B] [DecidableEq B] in
/-- The slab that `unsized_to_global` takes for the last one of its batch. -/
theorem last_of_batch {batch : List (Index B)} {first : Index B} (hfirst : batch.head? = some first) :
    ∃ before, batch = before ++ [batch.tail.getLast?.getD first] := by
  cases batch with
  | nil => cases hfirst
  | cons j batch =>
    obtain rfl : j = first := Option.some.inj hfirst
    obtain ⟨last, hlast⟩ : ∃ last, (j :: batch).getLast? = some last :=
      ⟨_, List.getLast?_cons⟩
    obtain ⟨before, hbatch⟩ := List.getLast?_eq_some_iff.mp hlast
    rw [List.getLast?_cons] at hlast
    exact ⟨before, by rw [List.tail_cons, Option.some.inj hlast, hbatch]⟩

/-- `Heap::unsized_to_global`. -/
theorem follow_unsizedToGlobal (hok : v.Ok t L) (hne : L none ≠ [])
    (hhand : v.hand = h) (hQ : ∀ v', v'.Good t h → Q () v') :
    (Heap.unsizedToGlobal cfg t : HeapCode T B Unit).follow (pre cfg t) Q v := by
  unfold Heap.unsizedToGlobal
  rw [follow_access]
  refine ⟨none, rfl, ?_⟩
  beta_reduce
  split_ifs with hcount
  · exact hQ v ⟨⟨L, hok⟩, hhand⟩
  · have hseg := hok.chains.seg none
    have hown : ∀ j ∈ L none, v.place j = .unsized := fun j hj => (hok.unsized j).mp hj
    rw [follow_record, follow_bind]
    refine follow_peek none ?_
    rw [follow_bind]
    refine follow_takeBatch hseg hown fun owner howner => ?_
    rw [follow_bind]
    refine follow_unwrap_or (fun hnone _ hpos _ => ?_) fun first hfirst => ?_
    · rw [List.head?_eq_none_iff, List.take_eq_nil_iff] at hnone
      exact absurd hnone (by simp [hne]; omega)
    obtain ⟨before, htaken⟩ := last_of_batch hfirst
    generalize ((L none).take cfg.batchGlobal).tail.getLast?.getD first = last at htaken ⊢
    have hl := (List.take_append_drop cfg.batchGlobal (L none)).symm
    have hlen := List.length_take_le cfg.batchGlobal (L none)
    have hafter := List.length_drop (i := cfg.batchGlobal) (l := L none)
    have hall := hok.len none
    generalize (L none).drop cfg.batchGlobal = after at hl hafter
    rw [htaken] at hl hlen howner hfirst
    obtain ⟨hbatch, hlast, hnext⟩ := hok.batch hl
    have hmem : ∀ j ∈ before ++ [last], v.place j = .unsized := fun j hj =>
      hown j (by rw [hl]; exact List.mem_append_left _ hj)
    have hhead : v.head none = some first := by
      rw [hseg.head_eq, hl, List.head?_append, hfirst]
      rfl
    refine follow_loadNext (by simp [hmem last]) ?_
    rw [follow_log, follow_bind]
    refine follow_checkedSub_or (fun hlt _ _ hle => by omega) ?_
    rw [follow_bind]
    refine follow_set_unsized (fun j hj => ?_) ?_
    · have hj : j ∈ after := List.mem_of_mem_head? (by rw [← hnext]; exact hj)
      exact hown j (by rw [hl]; exact List.mem_append_right _ hj)
    rw [follow_bind]
    refine follow_flushBatch (hhead ▸ hseg) hown ?_
    refine follow_globalPush (hhead ▸ hbatch) hlast hlen hmem fun next hframe =>
      hQ _ ⟨⟨update L none after, ?_⟩, hhand⟩
    refine hok.share hl ?_ (by omega) rfl (fun j hj => hframe j ?_) (fun _ => rfl) howner rfl rfl
    · rw [← hnext]
    · rintro rfl
      exact hj (by simp)

end Sharing

/-! ### Free -/

section Free

variable [DecidableEq T] {b : Bit} {c : B}

/-- `Heap::claim`, of the slab that the last free of a block has brought. -/
theorem follow_claim (hv : v.Good t none) (hgains : v.Gains {i} v')
    (hQ : ∀ v'', v''.Good t none → Q () v'') :
    (Heap.claim cfg t c i : HeapCode T B Unit).follow (pre cfg t) Q v' := by
  obtain ⟨⟨L, hok⟩, hhand⟩ := hv
  have hown : v'.place i = .unsized := hgains.gained i rfl
  unfold Heap.claim
  rw [follow_record, Slab.steal]
  refine follow_storeOwner hown ?_
  rw [follow_bind]
  refine follow_push_unsized hown ?_
  rw [follow_bind]
  refine follow_validateOwned ?_
  exact follow_unsizedToGlobal (hok.adopt_one hgains) (by simp) (hgains.hand.trans hhand) hQ

/-- `Heap::free_remote`, of a block of a slab that is not the thread's. -/
theorem follow_freeRemote (hv : v.Good t (some ⟨i, b.toNat, c⟩))
    (haway : v.place i = .away) (hQ : ∀ v', v'.Good t none → Q () v') :
    (Heap.freeRemote cfg t i : HeapCode T B Unit).follow (pre cfg t) Q v := by
  obtain ⟨⟨L, hok⟩, hhand⟩ := hv
  have hgone : Good t none { v with hand := none } := ⟨⟨L, hok.forget none v.seen v.link⟩, rfl⟩
  unfold Heap.freeRemote
  refine follow_loadClass_away haway fun c' => ?_
  rw [follow_record, follow_bind]
  refine follow_update (I := fun w v' => v.Counter i w ∧ v' = v) (fun w hw => ⟨hw, rfl⟩) ?_
  rintro version w v' ⟨hw, hv'⟩
  subst hv'
  have hpos : 0 < w.inner.free := hw ⟨_, _, hhand⟩
  split_ifs with hzero
  · simp at hzero
    omega
  · rw [follow_bind]
    refine follow_checkedSub hpos ⟨by simp, ?_⟩
    rintro _ ⟨⟩
    refine ⟨fun w' hw' => ⟨by simp, ?_⟩, haway, ⟨_, _, hhand⟩, ?_, fun hmore => ?_,
      fun hlast v' hgains => ?_⟩
    · rintro _ ⟨⟩
      exact ⟨hw', rfl⟩
    · show w.inner.free - 1 + 1 = w.inner.free
      omega
    · refine ⟨fun _ => ?_, by simp⟩
      have hne : w.inner.free ≠ 1 := fun h => hmore (by simp [h])
      show (if w.inner.free = 1 then _ else _ : HeapCode T B Unit).follow _ _ _
      rw [if_neg hne]
      exact hQ _ hgone
    · refine ⟨fun _ => ?_, by simp⟩
      have hone : w.inner.free = 1 := by
        have hlast : w.inner.free - 1 = 0 := hlast
        omega
      show (if w.inner.free = 1 then _ else _ : HeapCode T B Unit).follow _ _ _
      rw [if_pos hone]
      exact follow_claim hgone hgains hQ

/-- The end of `Heap::free`: a slab with all its blocks goes back to the unsized stack. -/
theorem follow_settle (hok : v.Ok t L) (hhand : v.hand = none) (hi : i ∈ L (some c))
    (howner : v.owner i = some t) (hbits : v.bits i = s) (hvalid : s.validate = true)
    (hlt : ∀ k ∈ s.elems, k < count c) (hQ : ∀ v', v'.Good t none → Q () v') :
    (if s.len < count c then pure ()
      else do
        Heap.sizedToUnsized t c i
        Heap.validateOwned cfg t
        lift (.record t (.sizedToUnsized c))
        Heap.unsizedToGlobal cfg t : HeapCode T B Unit).follow (pre cfg t) Q v := by
  split_ifs with hlen
  · exact hQ v ⟨⟨L, hok⟩, hhand⟩
  · subst hbits
    obtain ⟨-, rfl, -⟩ := (hok.sized c i).mp hi
    have hfull : (v.bits i).elems = Finset.range (count (v.sizeClass i)) := by
      refine Finset.eq_of_subset_of_card_le (fun k hk => Finset.mem_range.mpr (hlt k hk)) ?_
      rw [Finset.card_range, ← BitSet.len_eq_card hvalid]
      omega
    rw [follow_bind]
    refine follow_sizedToUnsized hok hhand hi howner hfull fun v' L' hok' hne hhand' => ?_
    rw [follow_bind]
    refine follow_validateOwned ?_
    rw [follow_record]
    exact follow_unsizedToGlobal hok' hne hhand' hQ

/-- `Heap::free`. -/
theorem follow_free [LawfulBracket B] {offset : Offset B}
    (hv : v.Good t (some ⟨i, b.toNat, c⟩)) (hindex : offset.intoIndex = some i)
    (hblock : offset.intoBlock c = some b) (hQ : ∀ v', v'.Good t none → Q () v') :
    (Heap.free cfg t offset : HeapCode T B Unit).follow (pre cfg t) Q v := by
  unfold Heap.free
  rw [follow_bind]
  refine follow_unwrap hindex ?_
  cases hp : v.place i with
  | away =>
    refine follow_loadOwner_away hp hv.2 fun o ho => ?_
    rw [if_pos ho]
    exact follow_freeRemote hv hp hQ
  | unsized =>
    refine follow_loadOwner (by simp [hp]) fun hknown => ?_
    exact absurd hp (hknown.hand _ _ hv.2).1
  | sized =>
    refine follow_loadOwner (by simp [hp]) fun hknown => ?_
    obtain ⟨rfl, hlt, hnew⟩ := (hknown.hand _ _ hv.2).2 hp
    obtain ⟨⟨L, hok⟩, hhand⟩ := hv
    have howner := hknown.owner hp
    have hvalid := hknown.valid hp
    have hrow := Bit.row_lt hlt
    rw [if_neg (by simp [howner])]
    refine follow_loadClass (by simp [hp]) fun _ => ?_
    rw [hblock, follow_bind, follow_pure, follow_record, follow_log]
    refine follow_loadBits (by simp [hp]) fun _ => ?_
    rw [BitSet.set_eq _ hvalid hrow hnew]
    have hvalid' := BitSet.validate_inserted hvalid hrow hnew
    have helems := BitSet.elems_inserted (s := v.bits i) hrow
    refine follow_put hp hvalid' hhand helems ?_
    have hcard : ((v.bits i).inserted b).len = (v.bits i).elems.card + 1 := by
      rw [BitSet.len_eq_card hvalid', helems, Finset.card_insert_of_notMem hnew]
    have hlt' : ∀ k ∈ ((v.bits i).inserted b).elems, k < count (v.sizeClass i) := by
      intro k hk
      rw [helems, Finset.mem_insert] at hk
      rcases hk with rfl | hk
      · exact hlt
      · exact hknown.elems hp k hk
    have hsome : ((v.bits i).inserted b).elems.Nonempty := by
      rw [helems]
      exact Finset.insert_nonempty _ _
    have hself : update v.bits i ((v.bits i).inserted b) i = (v.bits i).inserted b := update_self ..
    dsimp only
    by_cases hone : ((v.bits i).inserted b).len = 1
    · have hempty : (v.bits i).elems = ∅ := Finset.card_eq_zero.mp (by omega)
      have hok' := hok.attach hp hempty hsome none
      rw [if_pos hone, follow_bind, Heap.attach, follow_record]
      refine follow_push_sized (by simp [hp]) ?_
      exact follow_settle hok' rfl (by simp) howner hself hvalid' hlt' hQ
    · have hne : (v.bits i).elems.Nonempty := Finset.card_pos.mp (by omega)
      have hok' := hok.rewrite (i := i) (iff_of_true hsome hne) none
      have hmem : i ∈ L (some (v.sizeClass i)) := (hok.sized _ i).mpr ⟨hp, rfl, hne⟩
      rw [if_neg hone]
      exact follow_settle hok' rfl hmem howner hself hvalid' hlt' hQ

end Free

end View

end Cxlalloc
