/-
Recovery from a crash while a slab is taken from the global stack.

The compare-exchange of the pop makes the slab the thread's; its owner is written after
that, then its link, then the unsized stack.  Recovery puts the slab on the unsized stack
if it is not on top of it already, and counts the stack.  It does not write the owner, so
the slab is recovered exactly if the owner was written before the crash, or was the thread
all along.
-/
import Cxlalloc.Proofs.Crash
import Cxlalloc.Proofs.Session

namespace Cxlalloc

open Lib
open Lib.Prog
open Cxlalloc.Bracket
open Function
open Relation

namespace Tracked

variable {T B : Type} [Bracket B] {t : T} {c : B} {x y z : Tracked T B}
  {L : Option B → List (Index B)} {len : Option B → ℕ} {i : Index B}

/-! ### The thread before and after the compare-exchange -/

theorem records_leaves (hL : ∀ k, ∀ i ∈ L k, i ∈ x.mine) (h : x.toHeap.Records t L)
    (hxy : Leaves t x y) : y.toHeap.Records t L where
  unsized i hi := (hxy.owner i (hL none i hi)).trans (h.unsized i hi)
  sized c i hi := by
    rw [hxy.owner i (hL _ i hi), hxy.sizeClass i (hL _ i hi), hxy.bits i (hL _ i hi)]
    exact h.sized c i hi

/-- The stacks hold `L` and are recorded with lengths `len`. -/
structure Ready (t : T) (L : Option B → List (Index B)) (len : Option B → ℕ) (x : Tracked T B) :
    Prop where
  chains : x.Stacks t L
  records : x.toHeap.Records t L
  lens : ∀ k, x.len (.of t k) = len k

theorem Ready.leaves (h : x.Ready t L len) (hxy : Leaves t x y) : y.Ready t L len where
  chains := h.chains.leaves hxy
  records := records_leaves h.chains.mine h.records hxy
  lens k := (hxy.len _ StackId.thread_of).trans (h.lens k)

section

variable [DecidableEq B]

/-- The lists with a slab on top of the unsized stack. -/
def pushed (L : Option B → List (Index B)) (i : Index B) : Option B → List (Index B) :=
  update L none (i :: L none)

/-- The slab is the thread's, and on its unsized stack or on none. -/
structure Popped (t : T) (L : Option B → List (Index B)) (len : Option B → ℕ) (i : Index B)
    (x : Tracked T B) : Prop where
  mine : i ∈ x.mine
  lists : ∀ k, ∀ j ∈ L k, j ∈ x.mine
  below : i.value < 2 ^ 32
  out : ∀ k, i ∉ L k
  records : x.toHeap.Records t L
  lens : ∀ c, x.len (.sized t c) = len (some c)
  place : x.Stacks t L ∨ x.Stacks t (pushed L i)

theorem Popped.leaves (h : x.Popped t L len i) (hxy : Leaves t x y) : y.Popped t L len i where
  mine := hxy.mine ▸ h.mine
  lists := hxy.mine ▸ h.lists
  below := h.below
  out := h.out
  records := records_leaves h.lists h.records hxy
  lens c := (hxy.len _ rfl).trans (h.lens c)
  place := h.place.imp (·.leaves hxy) (·.leaves hxy)

/-- Where the pop may be stopped. -/
def PopStopped (t : T) (L : Option B → List (Index B)) (len : Option B → ℕ) (z : Tracked T B) :
    Prop :=
  ∀ i v, z.log t = some (.globalToUnsized i v) →
    (z.cas = some false ∧ z.Ready t L len) ∨ (z.cas = some true ∧ z.Popped t L len i)

theorem popStopped_stable : Stable (Leaves t) (PopStopped t L len) := by
  intro y z hyz h i v hlog
  rw [hyz.log] at hlog
  rw [hyz.cas]
  exact (h i v hlog).imp (And.imp_right (·.leaves hyz)) (And.imp_right (·.leaves hyz))

/-- The thread has not taken a slab yet. -/
structure Trying (t : T) (L : Option B → List (Index B)) (len : Option B → ℕ) (x : Tracked T B) :
    Prop where
  ready : x.Ready t L len
  apart : x.Apart
  cas : ∀ i v, x.log t = some (.globalToUnsized i v) → x.cas = some false

omit [DecidableEq B] in
theorem Trying.leaves (h : x.Trying t L len) (hxy : Leaves t x y) : y.Trying t L len where
  ready := h.ready.leaves hxy
  apart := hxy.apart h.apart
  cas i v hlog := hxy.cas.trans (h.cas i v (hxy.log ▸ hlog))

theorem Trying.stopped (h : x.Trying t L len) : x.PopStopped t L len :=
  fun i v hlog => .inl ⟨h.cas i v hlog, h.ready⟩

omit [DecidableEq B] in
/-- Only the help array and the record of the thread are written. -/
theorem Trying.write (h : x.Trying t L len) (help : T → T → Version)
    (log : T → Option (HeapState B)) (cas : Option Bool)
    (hcas : ∀ i v, log t = some (.globalToUnsized i v) → cas = some false) :
    { x with help := help, log := log, cas := cas }.Trying t L len where
  ready := ⟨⟨h.ready.chains.chains, h.ready.chains.mine, h.ready.chains.below⟩,
    ⟨h.ready.records.unsized, h.ready.records.sized⟩, h.ready.lens⟩
  apart := h.apart
  cas := hcas

/-- Writes to the record of the slab itself, and to the unsized stack. -/
theorem Popped.write (h : x.Popped t L len i) (hmine : z.mine = x.mine)
    (hslab : ∀ j, j ≠ i → z.owner j = x.owner j ∧ z.sizeClass j = x.sizeClass j ∧
      z.bits j = x.bits j)
    (hlen : ∀ c, z.len (.sized t c) = x.len (.sized t c))
    (hplace : z.Stacks t L ∨ z.Stacks t (pushed L i)) : z.Popped t L len i where
  mine := hmine ▸ h.mine
  lists := hmine ▸ h.lists
  below := h.below
  out := h.out
  records := by
    have hne : ∀ k, ∀ j ∈ L k, j ≠ i := fun k j hj heq => h.out k (heq ▸ hj)
    refine ⟨fun j hj => (hslab j (hne _ j hj)).1.trans (h.records.unsized j hj), fun c j hj => ?_⟩
    obtain ⟨ho, hc, hb⟩ := hslab j (hne _ j hj)
    rw [ho, hc, hb]
    exact h.records.sized c j hj
  lens c := (hlen c).trans (h.lens c)
  place := hplace

theorem Popped.stopped (h : x.Popped t L len i) {v : Version}
    (hlog : x.log t = some (.globalToUnsized i v)) (hcas : x.cas = some true) :
    x.PopStopped t L len := by
  intro j w hj
  obtain ⟨rfl, -⟩ := HeapState.globalToUnsized.inj (Option.some.inj (hlog.symm.trans hj))
  exact .inr ⟨hcas, h⟩

variable [DecidableEq T]

omit [DecidableEq B] [DecidableEq T] in
/-- The link of a slab on no list is free to change. -/
theorem Stacks.link (h : x.Stacks t L) (hi : ∀ k, i ∉ L k) (v : Option (Index B)) :
    { x with next := update x.next i v }.Stacks t L where
  chains := h.chains.frame fun k j hj => update_of_ne (fun heq : j = i => hi k (heq ▸ hj)) _ _
  mine := h.mine
  below := h.below

theorem Stacks.push (h : x.Stacks t L) (hi : ∀ k, i ∉ L k) (hmine : i ∈ x.mine)
    (hbelow : i.value < 2 ^ 32) :
    { x with
      next := update x.next i (x.head (.unsized t))
      head := update x.head (.unsized t) (some i) }.Stacks t (pushed L i) where
  chains := by
    have hpush := h.chains.push (k := none) hi
    rw [← heads_update] at hpush
    exact hpush
  mine k j hj := by
    rcases Chains.mem_push.mp hj with hj | ⟨rfl, -⟩
    · exact h.mine k j hj
    · exact hmine
  below k j hj := by
    rcases Chains.mem_push.mp hj with hj | ⟨rfl, -⟩
    · exact h.below k j hj
    · exact hbelow

omit [DecidableEq T] in
/-- The compare-exchange makes the top of the global stack the thread's. -/
theorem Trying.popped (h : y.Trying t L len) {v : Version} {old : Word T (Option (Index B))}
    (new : Word T (Option (Index B))) (hlog : y.log t = some (.globalToUnsized i v))
    (hold : y.global = old) (hi : old.inner = some i) :
    let z := y.advance t { y.toMem with toHeap := y.setWord .global new }
      (.casWord .global old new) none
    z.Popped t L len i ∧ z.Ready t L len := by
  obtain ⟨hmine, htheirs⟩ := h.apart.top ((congrArg Word.inner hold).trans hi)
  have hsub : ∀ j ∈ y.mine, j ∈ y.mine \ released y.toMem (y.log t) ∪ acquired y.toMem (y.log t) := by
    intro j hj
    rw [hlog]
    exact .inl ⟨hj, fun h => h⟩
  have hst := h.ready.chains
  have hst' : (y.advance t { y.toMem with toHeap := y.setWord .global new }
      (.casWord .global old new) none).Stacks t L :=
    ⟨hst.chains, fun k j hj => hsub j (hst.mine k j hj), hst.below⟩
  refine ⟨⟨?_, hst'.mine, h.apart.2.2 i htheirs, fun k hk => hmine (hst.mine k i hk),
    ⟨h.ready.records.unsized, h.ready.records.sized⟩, fun c => h.ready.lens (some c),
    .inl hst'⟩, ⟨hst', ⟨h.ready.records.unsized, h.ready.records.sized⟩, h.ready.lens⟩⟩
  show i ∈ y.mine \ _ ∪ acquired _ (y.log t)
  rw [hlog]
  exact .inr rfl

variable {α : Type} {Q : α → Tracked T B → Prop} {v : Version}
  {f : Option (Option (Index B)) → HeapCode T B α}

/-- The loop of the pop: it ends with the stack empty, or with its top. -/
theorem runs_popLoop {n : ℕ} {w : Word T (Option (Index B))}
    (hnone : ∀ x, x.Trying t L len → Runs t (f none) Q (PopStopped t L len) (fun _ => True) x)
    (hsome : ∀ i x, x.Popped t L len i → x.Ready t L len →
      x.log t = some (.globalToUnsized i v) → x.cas = some true →
      Runs t (f (some (some i))) Q (PopStopped t L len) (fun _ => True) x)
    (hx : x.Trying t L len) :
    Runs t (Detectable.updateLoop t .global v (fun old version =>
        match old with
        | none => pure none
        | some index => do
          let new ← lift (.loadNext index)
          pure (some (new, .globalToUnsized index version))) n w >>= f)
      Q (PopStopped t L len) (fun _ => True) x := by
  have hC : Stable (Leaves t) (PopStopped t L len) := popStopped_stable
  induction n generalizing w x with
  | zero => exact runs_panic hC hx.stopped trivial
  | succ n ih =>
    simp only [Detectable.updateLoop, bind_assoc]
    refine runs_help hC hx.stopped fun help => ?_
    have hx := hx.write help x.log x.cas hx.cas
    cases hw : w.inner with
    | none => exact hnone _ hx
    | some i =>
      simp only [bind_assoc, pure_bind]
      refine runs_loadShared hC hx.stopped fun new => ?_
      refine runs_log hC hx.stopped ?_
      have hx := hx.write help (update x.log t (some (.globalToUnsized i v))) (some false)
        fun _ _ _ => rfl
      refine runs_casWord hC hx.stopped (fun y hy hword => ?_) fun _ _ => ih hx
      have hlog : y.log t = some (.globalToUnsized i v) := hy.log.trans (update_self ..)
      obtain ⟨hpopped, hready⟩ := (hx.leaves hy).popped ⟨some t, v, new⟩ hlog hword hw
      exact hsome i _ hpopped hready hlog rfl

/-! ### The call -/

/-- A record of another transition. -/
def Unpopped (r : HeapState B) : Prop :=
  ∀ i v, r ≠ .globalToUnsized i v

omit [Bracket B] [DecidableEq B] in
theorem unpopped_unsizedToSized {c : B} (i : Option (Index B)) :
    Unpopped (FromState.fromState (.unsizedToSized i c) : HeapState B) := by
  intro i v h
  cases h

omit [Bracket B] [DecidableEq B] in
theorem unpopped_bumpToUnsized (i : Option (Index B)) (v : Version) :
    Unpopped (FromState.fromState (.bumpToUnsized i v) : HeapState B) := by
  intro i v h
  cases h

omit [DecidableEq T] in
theorem popStopped_of_unpopped (h : ∀ r ∈ x.log t, Unpopped r) : x.PopStopped t L len :=
  fun i v hlog => absurd rfl (h _ hlog i v)

variable {p : HeapCode T B α}

theorem runs_unpopped (hp : p.Only (Act.By t { log := Unpopped }))
    (hx : ∀ r ∈ x.log t, Unpopped r) :
    Runs t p (fun _ _ => True) (PopStopped t L len) (fun _ => True) x :=
  wpc_mono (runs_of_by hp hx) (fun _ _ h => h) (fun _ _ h => h)
    (fun _ h => popStopped_of_unpopped h) (fun _ h => h)

variable {cfg : Config}

/-- A bump writes its own record before it takes anything. -/
theorem runs_bump {g : Index B × Index B → HeapCode T B α} (hx : x.Trying t L len)
    (hg : ∀ r, Built t { log := Unpopped } (g r)) :
    Runs t (Heap.bumpRange cfg t >>= g) (fun _ _ => True) (PopStopped t L len) (fun _ => True)
      x := by
  have hC : Stable (Leaves t) (PopStopped t L len) := popStopped_stable
  simp only [Heap.bumpRange, Detectable.update, Detectable.updateLoop, bind_assoc]
  refine runs_loadVersion hC hx.stopped (runs_storeHelp hC hx.stopped fun help => ?_)
  have hx := hx.write help x.log x.cas hx.cas
  refine runs_loadWord hC hx.stopped fun y _ => runs_help hC hx.stopped fun help => ?_
  have hx := hx.write help x.log x.cas hx.cas
  unfold Heap.addIndex
  split
  · simp only [pure_bind, bind_assoc]
    refine runs_log hC hx.stopped (runs_unpopped (.bind (.lift trivial) fun r => ?_) ?_)
    · have hrest : ∀ o : Option (Option (Index B)), Built t { log := Unpopped } (do
          let o ← unwrap o
          let finish ← Heap.addIndex (o.getD .min) (cfg.batchBump % 2 ^ 32)
          g (o.getD .min, finish) : HeapCode T B α) :=
        fun o => .bind by_unwrap fun _ => .bind Heap.by_addIndex fun _ => hg _
      cases r with
      | none => exact (hrest (some y.bump.inner)).only trivial
      | some w =>
        refine .bind (Detectable.only_updateLoop (fun _ _ => trivial) (fun _ _ =>
          .bind Heap.only_addIndex fun _ => .pure _) (fun old v => .bind fun _ => ?_) trivial) fun o =>
          (hrest o).only trivial
        intro s hs
        obtain rfl := Option.some.inj hs
        exact unpopped_bumpToUnsized old v
    · intro r hr
      have hr : update x.log t (some (.bumpToUnsized y.bump.inner _)) t = some r := hr
      rw [update_self] at hr
      obtain rfl := Option.some.inj hr
      exact unpopped_bumpToUnsized _ _
  · exact runs_panic hC hx.stopped trivial

/-- The slab gets its owner, and its place on the unsized stack. -/
theorem runs_place {C : Tracked T B → Prop} {E : Panic → Prop} {Q : α → Tracked T B → Prop}
    (hC : Stable (Leaves t) C) (hx : x.Popped t L len i) (hready : x.Ready t L len)
    (hc : ∀ z : Tracked T B, z.Popped t L len i → z.log t = x.log t → z.cas = x.cas →
      z.frees = x.frees → (x.Apart → z.Apart) → C z) (hk : ∀ z : Tracked T B, z.Popped t L len i →
      z.Ready t (pushed L i) (update len none (len none + 1)) → z.log t = x.log t →
      z.cas = x.cas → z.frees = x.frees → (x.Apart → z.Apart) → Runs t p Q C E z) :
    Runs t (do
        lift (.storeOwner i (some t))
        Stack.push (.unsized t) i
        p) Q C E x := by
  refine runs_storeOwner hC (hc x hx rfl rfl rfl id) ?_
  have hst : ({ x with
      owner := update x.owner i (some t)
      lastOwner := update x.lastOwner i ((some t).or (x.lastOwner i)) } : Tracked T B).Stacks t L :=
    ⟨hready.chains.chains, hready.chains.mine, hready.chains.below⟩
  have howned := hx.write (z := { x with
    owner := update x.owner i (some t)
    lastOwner := update x.lastOwner i ((some t).or (x.lastOwner i)) }) rfl
    (fun j hj => ⟨update_of_ne hj _ _, rfl, rfl⟩) (fun _ => rfl) (.inl hst)
  have hpush := hst.push hx.out hx.mine hx.below
  have hapart : ∀ head len, x.Apart → Apart { x with
      owner := update x.owner i (some t)
      lastOwner := update x.lastOwner i ((some t).or (x.lastOwner i))
      next := update x.next i (x.head (.unsized t)), head := head, len := len } :=
    fun head len hap => hap.congr rfl rfl rfl fun j hj =>
      update_of_ne (fun heq : j = i => hj (heq ▸ hx.mine)) _ _
  have hpushed : ∀ n, Popped t L len i { x with
      owner := update x.owner i (some t)
      lastOwner := update x.lastOwner i ((some t).or (x.lastOwner i))
      next := update x.next i (x.head (.unsized t))
      head := update x.head (.unsized t) (some i)
      len := update x.len (.unsized t) n } :=
    fun n => howned.write rfl (fun _ _ => ⟨rfl, rfl, rfl⟩) (fun c => update_unsized x.len n c)
      (.inr ⟨hpush.chains, hpush.mine, hpush.below⟩)
  refine runs_push hC rfl hx.mine (hc _ howned rfl rfl rfl id) ?_ ?_ ?_
  · exact hc _ (howned.write rfl (fun _ _ => ⟨rfl, rfl, rfl⟩) (fun _ => rfl)
      (.inl (hst.link hx.out _))) rfl rfl rfl (hapart _ _)
  · exact hc _ (howned.write rfl (fun _ _ => ⟨rfl, rfl, rfl⟩) (fun _ => rfl) (.inr hpush)) rfl rfl
      rfl (hapart _ _)
  · refine hk _ (hpushed _) ⟨⟨hpush.chains, hpush.mine, hpush.below⟩, ⟨fun j hj => ?_,
      fun c j hj => ?_⟩, fun k => ?_⟩ rfl rfl rfl (hapart _ _)
    · rcases Chains.mem_push.mp hj with hj | ⟨rfl, -⟩
      · exact howned.records.unsized j hj
      · exact update_self ..
    · rcases Chains.mem_push.mp hj with hj | ⟨-, hk⟩
      · exact howned.records.sized c j hj
      · cases hk
    · cases k with
      | none => exact (update_self ..).trans (by rw [update_self, ← hready.lens none]; rfl)
      | some c =>
        refine (update_unsized x.len (x.len (.unsized t) + 1) c).trans ((hready.lens (some c)).trans ?_)
        rw [update_of_ne (by simp)]

/-- A slab that was popped is placed, and then carved. -/
theorem runs_adopt {g : Bool → HeapCode T B α} (hg : Built t { log := Unpopped } (g true))
    (hx : x.Popped t L len i) (hready : x.Ready t L len)
    (hlog : x.log t = some (.globalToUnsized i v)) (hcas : x.cas = some true) :
    Runs t (do
        Slab.own cfg t i
        Stack.push (.unsized t) i
        Heap.unsizedToSized t c >>= g)
      (fun _ _ => True) (PopStopped t L len) (fun _ => True) x := by
  have hC : Stable (Leaves t) (PopStopped t L len) := popStopped_stable
  have hc := hx.stopped hlog hcas
  have hstore : Runs t (do
      lift (.storeOwner i (some t))
      Stack.push (.unsized t) i
      Heap.unsizedToSized t c >>= g)
      (fun _ _ => True) (PopStopped t L len) (fun _ => True) x := by
    refine runs_place hC hx hready (fun z hz hzlog hzcas _ _ => ?_)
      fun z hz hzready hzlog hzcas _ _ => ?_
    · exact hz.stopped (hzlog.trans hlog) (hzcas.trans hcas)
    · refine runs_carve (i := i) hC unpopped_unsizedToSized (fun _ => popStopped_of_unpopped)
        (hz.stopped (hzlog.trans hlog) (hzcas.trans hcas)) hg hz.mine ?_
      exact (hzready.chains.chains.head_eq none).trans (by rw [pushed, update_self]; rfl)
  unfold Slab.own
  split
  · simp only [bind_assoc]
    refine runs_loadOwner hC hc hx.mine ?_
    split
    · rw [bind_assoc]
      exact runs_panic hC hc trivial
    · exact hstore
  · exact hstore

theorem runs_allocate (hx : x.Trying t L len) :
    Runs t (Heap.allocate cfg t c) (fun _ _ => True) (PopStopped t L len) (fun _ => True) x := by
  have hC : Stable (Leaves t) (PopStopped t L len) := popStopped_stable
  have hlogs := Heap.by_unsizedToSized (t := t) (r := { log := Unpopped }) trivial trivial
    (unpopped_unsizedToSized (c := c))
  let top : HeapCode T B (Option (Index B)) := do
    lift (.record t (.unsizedToSized c))
    Heap.validateOwned cfg t
    Stack.peek (.sized t c)
  have hsized : Built t { log := Unpopped } top :=
    .bind (.lift trivial) fun _ => .bind Heap.by_validateOwned fun _ => .lift trivial
  unfold Heap.allocate
  split
  · exact runs_pure (fun _ _ _ _ => trivial) hC hx.stopped trivial
  cases hhead : x.head (.unsized t) with
  | some i =>
    have hi : i ∈ L none :=
      List.mem_of_mem_head? ((hx.ready.chains.chains.head_eq none).symm.trans hhead)
    exact runs_carve hC unpopped_unsizedToSized (fun _ => popStopped_of_unpopped) hx.stopped
      hsized (hx.ready.chains.mine none i hi) hhead
  | none =>
    have hbump : ∀ y : Tracked T B, y.Trying t L len → Runs t (do
        let r ← Heap.bumpRange cfg t
        lift (.record t .bump)
        Slab.link cfg t none (r.2.value - r.1.value) r.1
        Stack.set (.unsized t) (some r.1) cfg.batchBump
        let _ ← Heap.unsizedToSized t c
        top) (fun _ _ => True) (PopStopped t L len) (fun _ => True) y :=
      fun y hy => runs_bump hy fun r => .bind (.lift trivial) fun _ => .bind Slab.by_link
        fun _ => .bind (Stack.by_set rfl) fun _ => .bind hlogs fun _ => hsized
    refine runs_unsizedToSized_nil hC hx.stopped hhead ?_
    rw [if_neg Bool.false_ne_true]
    simp only [Heap.sharedPop, Global.isEmpty, Detectable.load, bind_assoc, pure_bind]
    refine runs_loadWord hC hx.stopped fun _ _ => runs_help hC hx.stopped fun help => ?_
    have hx := hx.write help x.log x.cas hx.cas
    split
    · exact hbump _ hx
    · simp only [Global.pop, Detectable.update, bind_assoc]
      refine runs_loadVersion hC hx.stopped (runs_storeHelp hC hx.stopped fun help => ?_)
      have hx := hx.write help x.log x.cas hx.cas
      refine runs_loadWord hC hx.stopped fun _ _ => ?_
      refine runs_popLoop hbump (fun i y hy hready hlog hcas => ?_) hx
      exact runs_record hC (hy.stopped hlog hcas) (runs_adopt hsized hy hready hlog hcas)

/-! ### Recovery -/

/-- The compare-exchange did not take effect and the stacks are as they were, or the slab
is on the unsized stack, owned and counted.  If `is_valid` held before the call, it does. -/
def PopRecovered (t : T) (i : Index B) (L : Option B → List (Index B))
    (m : Mem T B (HeapState B)) (cas : Option Bool) (w : Tracked T B) : Prop :=
  ((cas = some false ∧ w.Stacks t L ∧ ∀ k, w.len (.of t k) = m.len (.of t k)) ∨
    (cas = some true ∧ w.Stacks t (pushed L i) ∧ w.owner i = some t ∧
      w.len (.unsized t) = (pushed L i none).length)) ∧
  (m.toHeap.isValid t = true → w.toHeap.isValid t = true)

/-- The slab is on the unsized stack, and the owner is whoever it was. -/
structure Adopted (t : T) (L : Option B → List (Index B)) (len : Option B → ℕ) (i : Index B)
    (owner : Option T) (w : Tracked T B) : Prop where
  chains : w.Stacks t (pushed L i)
  records : w.toHeap.Records t L
  unsized : w.len (.unsized t) = (pushed L i none).length
  sized : ∀ c, w.len (.sized t c) = len (some c)
  owner : w.owner i = owner

omit [DecidableEq T] in
theorem Adopted.leaves {o : Option T} (h : x.Adopted t L len i o) (hxy : Leaves t x y) :
    y.Adopted t L len i o where
  chains := h.chains.leaves hxy
  records := records_leaves
    (fun k j hj => h.chains.mine k j (Chains.mem_push.mpr (.inl hj))) h.records hxy
  unsized := (hxy.len _ rfl).trans h.unsized
  sized c := (hxy.len _ rfl).trans (h.sized c)
  owner := (hxy.owner i (h.chains.mine none i (by simp [pushed]))).trans h.owner

omit [DecidableEq T] in
/-- On top of the unsized stack the slab is where it should be. -/
theorem Popped.onTop (hz : z.Popped t L len i) (htop : z.head (.unsized t) = some i) :
    z.Stacks t (pushed L i) := by
  rcases hz.place with hst | hst
  · have hmem := List.mem_of_mem_head? ((hst.chains.head_eq none).symm.trans htop)
    exact absurd hmem (hz.out none)
  · exact hst

/-- Otherwise it is on no stack, and can be pushed. -/
theorem Popped.offTop (hz : z.Popped t L len i) (hne : z.head (.unsized t) ≠ some i) :
    { z with
      next := update z.next i (z.head (.unsized t))
      head := update z.head (.unsized t) (some i) }.Stacks t (pushed L i) := by
  rcases hz.place with hst | hst
  · exact hst.push hz.out hz.mine hz.below
  · refine absurd ((hst.chains.head_eq none).trans ?_) hne
    rw [pushed, update_self]
    rfl

theorem runs_recover_popped (hz : z.Popped t L len i) :
    Runs t (Stack.recoverPush (.unsized t) i) (fun _ w => w.Adopted t L len i (z.owner i))
      (fun _ => True) (fun _ => False) z := by
  rw [← bind_pure (Stack.recoverPush _ _)]
  refine runs_recoverPush hz.mine hz.onTop hz.offTop fun next head _ hy =>
    runs_pure (fun _ _ hw h => h.leaves hw) (fun _ _ _ _ => trivial) trivial ?_
  refine ⟨hy, ⟨hz.records.unsized, hz.records.sized⟩, update_self .., fun c => ?_, rfl⟩
  exact (update_unsized z.len (pushed L i none).length c).trans (hz.lens c)

variable [LawfulBracket B]

theorem Ready.isValid_iff (h : x.Ready t L len) :
    x.toHeap.isValid t = true ↔ ∀ k, len k = (L k).length := by
  rw [Heap.Owned.isValid_iff ⟨h.records, h.chains.chains⟩]
  exact forall_congr' fun k => by rw [h.lens k]

theorem Adopted.isValid (h : x.Adopted t L len i (some t)) (hlen : ∀ k, len k = (L k).length) :
    x.toHeap.isValid t = true := by
  have hrecords : x.toHeap.Records t (pushed L i) := by
    refine ⟨fun j hj => ?_, fun c j hj => ?_⟩
    · rcases Chains.mem_push.mp hj with hj | ⟨rfl, -⟩
      · exact h.records.unsized j hj
      · exact h.owner
    · rcases Chains.mem_push.mp hj with hj | ⟨-, hk⟩
      · exact h.records.sized c j hj
      · cases hk
  rw [Heap.Owned.isValid_iff ⟨hrecords, h.chains.chains⟩, Option.forall]
  refine ⟨h.unsized, fun c => (h.sized c).trans ?_⟩
  rw [hlen, pushed, update_of_ne (by simp)]

variable [Fintype T]

/-- **A crash while a slab is taken from the global stack is recovered exactly if the
compare-exchange did not take effect or the slab names the thread as its owner.** -/
theorem globalToUnsized_recovers_iff (e : Others T B t) {m : Mem T B (HeapState B)}
    {a : Ledger T B} (inv : Inv cfg m.toHeap a)
    (hlog₀ : ∀ i v, m.log t ≠ some (.globalToUnsized i v))
    (hstop : Stops (handle t) e.acts (Heap.allocate cfg t c) (start t m none) z)
    (hlog : z.log t = some (.globalToUnsized i v)) (hdetect : e.Detects .global v z) :
    wpc (handle t) e.acts (Heap.recover cfg t)
      (fun _ w => PopRecovered t i (fun k => a.chain (some (.of t k))) m z.cas w)
      (fun _ => True) (fun _ => False) z ↔
    (z.cas = some true → z.owner i = some t) := by
  have hready : (start t m none).Ready t (fun k => a.chain (some (.of t k)))
      (fun k => m.len (.of t k)) :=
    ⟨stacks_start inv, (inv.owned t).toRecords, fun _ => rfl⟩
  have hvalid : m.toHeap.isValid t = true ↔
      ∀ k, m.len (.of t k) = (a.chain (some (.of t k))).length := hready.isValid_iff
  have htrying : (start t m none).Trying t (fun k => a.chain (some (.of t k)))
      (fun k => m.len (.of t k)) :=
    ⟨hready, apart_start inv, fun i v h => absurd h (hlog₀ i v)⟩
  have hstops : Runs t (Heap.allocate cfg t c) _ _ _ _ := runs_allocate htrying
  have hz := wpc_stops hstops (hstop.mono e.leaves) i v hlog
  -- What recovery does, whoever the owner is.
  have hrun : wpc (handle t) e.acts (Heap.recover cfg t)
      (fun _ w => (z.cas = some false ∧ w.Ready t (fun k => a.chain (some (.of t k)))
          (fun k => m.len (.of t k))) ∨
        (z.cas = some true ∧ w.Adopted t (fun k => a.chain (some (.of t k)))
          (fun k => m.len (.of t k)) i (z.owner i)))
      (fun _ => True) (fun _ => False) z := by
    refine wpc_recover_detect e hlog hdetect rfl fun took y hcas hy => ?_
    have hy := e.leaves z y hy
    rcases hz with ⟨hz, hready⟩ | ⟨hz, hpopped⟩
    · obtain rfl : false = took := Option.some.inj (hz.symm.trans hcas)
      exact runs_pure (fun _ _ hw => Or.imp (And.imp_right (·.leaves hw))
        (And.imp_right (·.leaves hw))) (fun _ _ _ _ => trivial) trivial
        (.inl ⟨hz, hready.leaves hy⟩)
    · obtain rfl : true = took := Option.some.inj (hz.symm.trans hcas)
      refine wpc_mono (runs_recover_popped (hpopped.leaves hy)) (fun _ _ h => h)
        (fun _ w hw => .inr ⟨hz, ?_⟩) (fun _ h => h) (fun _ h => h)
      rw [← hy.owner i hpopped.mine]
      exact hw
  constructor
  · intro hrecovers hcas
    obtain ⟨_, w, hx, hw, -⟩ := wp_returns (wpc_wp e.refl hrecovers)
    rcases hw with ⟨hfalse, -⟩ | ⟨-, -, howner, -⟩
    · exact absurd (hcas.symm.trans hfalse) (by simp)
    · rcases wp_ok (wpc_wp e.refl hrun) hx with ⟨hfalse, -⟩ | ⟨-, hadopted⟩
      · exact absurd (hcas.symm.trans hfalse) (by simp)
      · exact hadopted.owner.symm.trans howner
  · intro howner
    refine wpc_mono hrun (fun _ _ h => h) ?_ (fun _ h => h) (fun _ h => h)
    rintro - w (⟨hcas, hw⟩ | ⟨hcas, hw⟩)
    · exact ⟨.inl ⟨hcas, hw.chains, hw.lens⟩, fun h => hw.isValid_iff.mpr (hvalid.mp h)⟩
    · rw [howner hcas] at hw
      exact ⟨.inr ⟨hcas, hw.chains, hw.owner, hw.unsized⟩, fun h => hw.isValid (hvalid.mp h)⟩

end

/-! ### The owner before and after it is written -/

/-- Thread 1 of `s` stops after `n` accesses of an allocation. -/
def popping (s : Running (Fin 2) Large (HeapState Large)) (n : ℕ) : Tracked (Fin 2) Large :=
  stopAt (handle 1) n (Heap.allocate (.initial false) 1 ⟨8⟩)
    (start 1 s.mem none)

/-- Thread 0 allocates a block and frees it, which leaves the slab on the global stack. -/
def oneShared : List (Call (Fin 2) Large) :=
  [.allocate 0 ⟨8⟩, .free 0 (Offset.fromBlock ⟨8⟩ .min ⟨0, 0⟩)]

/-- Thread 1 takes the slab and stops once it is the owner. -/
theorem globalToUnsized_recovers_owned :
    ∃ (s : Running (Fin 2) Large (HeapState Large)) (a : Ledger (Fin 2) Large),
    (popping s 12).cas = some true ∧
    wpc (handle 1) (Others.idle 1).acts (Heap.recover (.initial false) 1)
      (fun _ w => PopRecovered 1 .min (fun k => a.chain (some (.of 1 k)))
        s.mem (popping s 12).cas w)
      (fun _ => True) (fun _ => False) (popping s 12) := by
  obtain ⟨s, hs, hcas, howner, hlog, hlog₀, hdetect⟩ :
      ∃ s : Running (Fin 2) Large (HeapState Large),
      Running.script Session.TidyCall (.initial false) oneShared .zeroed = some s ∧
      ((popping s 12).cas = some true ∧ (popping s 12).owner .min = some 1 ∧
        (popping s 12).log 1 = some (.globalToUnsized .min 1) ∧ s.log 1 = none ∧
        ((Detectable.detect 1 .global 1).exec (handle 1) (popping s 12)).toOption.any (fun r =>
          r.1 = true) = true) :=
    Session.exists_of_any (by decide +kernel)
  obtain ⟨⟨_, _⟩, hdetect, rfl⟩ := exists_of_ok hdetect
  obtain ⟨a, tr, -⟩ := Session.exact_run (by decide) (by decide) (by decide) (by decide)
    (Running.run_of_script hs)
  have hstop : Stops (handle 1) (Others.idle 1).acts (Heap.allocate (.initial false) 1 ⟨8⟩)
      (start 1 s.mem none) (popping s 12) := stops_stopAt (Others.idle 1).refl 12 _ _
  have hlog₀ : ∀ i v, s.mem.log 1 ≠ some (.globalToUnsized i v) := by
    intro i v h
    cases hlog₀.symm.trans h
  exact ⟨s, a, hcas, (globalToUnsized_recovers_iff (Others.idle 1) tr.inv hlog₀ hstop hlog
    (detects_idle hdetect hcas)).mpr fun _ => howner⟩

/-- Thread 1 stops right after its compare-exchange.  After recovery the slab is on its
unsized stack, and thread 0 is the owner. -/
theorem globalToUnsized_foreign : ∃ s : Running (Fin 2) Large (HeapState Large),
    ReflTransGen (Session.TidyStep (HeapState Large) (.initial false)) Session.zeroed s.toSession ∧
    (popping s 10).log 1 = some (.globalToUnsized .min 1) ∧
    (Others.idle 1).Detects .global 1 (popping s 10) ∧
    ∃ w, (Heap.recover (.initial false) 1).exec (handle 1) (popping s 10) = .ok ((), w) ∧
      w.head (.unsized 1) = some .min ∧ w.owner .min = some 0 ∧
      ∀ L m, ¬ PopRecovered 1 .min L m (popping s 10).cas w := by
  obtain ⟨s, hs, hcas, hlog, hdetect, hw⟩ : ∃ s : Running (Fin 2) Large (HeapState Large),
      Running.script Session.TidyCall (.initial false) oneShared .zeroed = some s ∧
      ((popping s 10).cas = some true ∧ (popping s 10).log 1 = some (.globalToUnsized .min 1) ∧
        ((Detectable.detect 1 .global 1).exec (handle 1) (popping s 10)).toOption.any (fun r =>
          r.1 = true) = true ∧
        ((Heap.recover (.initial false) 1).exec (handle 1) (popping s 10)).toOption.any (fun r =>
          r.2.head (.unsized 1) = some .min ∧ r.2.owner .min = some 0) = true) :=
    Session.exists_of_any (by decide +kernel)
  obtain ⟨⟨_, _⟩, hdetect, rfl⟩ := exists_of_ok hdetect
  obtain ⟨⟨_, w⟩, hrun, hhead, howner⟩ := exists_of_ok hw
  refine ⟨s, Running.run_of_script hs, hlog, detects_idle hdetect hcas, w, hrun, hhead, howner, ?_⟩
  rintro L m ⟨⟨hfalse, -⟩ | ⟨-, -, hmine, -⟩, -⟩
  · exact absurd (hcas.symm.trans hfalse) (by simp)
  · exact absurd (howner.symm.trans hmine) (by decide)

end Tracked

end Cxlalloc
