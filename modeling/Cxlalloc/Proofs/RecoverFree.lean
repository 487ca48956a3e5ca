/-
Recovery from a crash in a remote free.

The compare-exchange of the counter is what frees the block.  A thread that takes the
counter to zero claims the slab: it writes the owner, and puts the slab on its unsized
stack.  Recovery frees the block if that did not take effect, and puts the slab on the
unsized stack if it did.  Like the recovery of a pop it does not write the owner.
-/
import Cxlalloc.Proofs.RecoverPop
import Cxlalloc.Proofs.RecoverPush

namespace Cxlalloc

open Lib
open Lib.Prog
open Cxlalloc.Bracket
open Function
open Relation

section

variable {T B R : Type} [Bracket B] [DecidableEq T] [DecidableEq B] [FromState B R]

/-- `free_remote` up to the push of `claim`.  Returns whether the slab was claimed. -/
def Heap.freeAndClaim (cfg : Config) (t : T) (index : Index B) : Code T B R Bool := do
  let c ← lift (.loadClass index)
  lift (.record t (.free (Bracket.size c)))
  let r ← Detectable.update cfg.retry t (.remote index) fun rem version => do
    if cfg.validate && rem.free == 0 then panic .remoteExhausted
    let next ← checkedSub rem.free 1
    pure (some (⟨next⟩, .remote index version (rem.free == 1)))
  let rem ← unwrap r
  if rem.free = 1 then
    lift (.record t (.claim c))
    Slab.steal t index
    Stack.push (.unsized t) index
    pure true
  else
    pure false

theorem Heap.freeRemote_eq (cfg : Config) (t : T) (index : Index B) :
    (freeRemote cfg t index : Code T B R Unit) = (do
      if ← freeAndClaim cfg t index then
        validateOwned cfg t
        unsizedToGlobal cfg t) := by
  unfold freeRemote freeAndClaim claim
  simp only [bind_assoc]
  refine congrArg _ (funext fun c => congrArg _ (funext fun _ => congrArg _ (funext fun r =>
    congrArg _ (funext fun rem => ?_))))
  split
  · simp [bind_assoc]
  · simp

end

namespace Tracked

variable {T B : Type} [Bracket B] {t : T} {x y z : Tracked T B}
  {L : Option B → List (Index B)} {len : Option B → ℕ} {i : Index B}

/-! ### Before and after the counter is changed -/

/-- The block is not freed yet. -/
structure Owing (t : T) (L : Option B → List (Index B)) (len : Option B → ℕ) (i : Index B)
    (x : Tracked T B) : Prop where
  ready : x.Ready t L len
  apart : x.Apart
  pending : x.Pending i
  frees : x.frees = []
  freeing : x.freeing = some i

theorem Owing.leaves (h : x.Owing t L len i) (hxy : Leaves t x y) : y.Owing t L len i where
  ready := h.ready.leaves hxy
  apart := hxy.apart h.apart
  pending := hxy.pending i h.freeing h.frees h.pending
  frees := hxy.frees.trans h.frees
  freeing := hxy.freeing.trans h.freeing

/-- The block is freed, and was not the last one of its slab. -/
structure Paid (t : T) (L : Option B → List (Index B)) (len : Option B → ℕ) (x : Tracked T B) :
    Prop where
  ready : x.Ready t L len
  frees : ∃ n, n ≠ 0 ∧ x.frees = [(n + 1, n)]

theorem Paid.leaves (h : x.Paid t L len) (hxy : Leaves t x y) : y.Paid t L len where
  ready := h.ready.leaves hxy
  frees := hxy.frees ▸ h.frees

variable [DecidableEq B]

/-- The block was the last one, and the slab is about to be claimed. -/
structure Claiming (t : T) (L : Option B → List (Index B)) (len : Option B → ℕ) (i : Index B)
    (x : Tracked T B) : Prop where
  popped : x.Popped t L len i
  apart : x.Apart
  frees : x.frees = [(1, 0)]

theorem Claiming.leaves (h : x.Claiming t L len i) (hxy : Leaves t x y) :
    y.Claiming t L len i where
  popped := h.popped.leaves hxy
  apart := hxy.apart h.apart
  frees := hxy.frees.trans h.frees

/-- Where the free may be stopped. -/
def FreeStopped (t : T) (L : Option B → List (Index B)) (len : Option B → ℕ) (i : Index B)
    (z : Tracked T B) : Prop :=
  z.cas = none ∨ ∃ v last, z.log t = some (.remote i v last) ∧
    ((z.cas = some false ∧ z.Owing t L len i) ∨
      (z.cas = some true ∧ last = false ∧ z.Paid t L len) ∨
      (z.cas = some true ∧ last = true ∧ z.Claiming t L len i))

theorem freeStopped_stable : Stable (Leaves t) (FreeStopped t L len i) := by
  rintro y z hyz (hcas | ⟨v, last, hlog, hy⟩)
  · exact .inl (hyz.cas.trans hcas)
  · refine .inr ⟨v, last, hyz.log.trans hlog, ?_⟩
    rw [hyz.cas]
    rcases hy with ⟨hcas, hy⟩ | ⟨hcas, hlast, hy⟩ | ⟨hcas, hlast, hy⟩
    · exact .inl ⟨hcas, hy.leaves hyz⟩
    · exact .inr (.inl ⟨hcas, hlast, hy.leaves hyz⟩)
    · exact .inr (.inr ⟨hcas, hlast, hy.leaves hyz⟩)

/-- The thread was not stopped: the block is freed, and the slab claimed if it was the last. -/
def Freed (t : T) (L : Option B → List (Index B)) (len : Option B → ℕ) (i : Index B)
    (claimed : Bool) (w : Tracked T B) : Prop :=
  (claimed = false ∧ w.Paid t L len) ∨
  (claimed = true ∧ w.Ready t (pushed L i) (update len none (len none + 1)) ∧ w.Apart ∧
    w.frees = [(1, 0)])

theorem freed_stable {claimed : Bool} : Stable (Leaves t) (Freed t L len i claimed) := by
  rintro y z hyz (⟨hc, hy⟩ | ⟨hc, hy, hap, hfrees⟩)
  · exact .inl ⟨hc, hy.leaves hyz⟩
  · exact .inr ⟨hc, hy.leaves hyz, hyz.apart hap, hyz.frees.trans hfrees⟩

omit [DecidableEq B] in
/-- The help array and the record are written. -/
theorem Owing.write (h : x.Owing t L len i) (help : T → T → Version)
    (log : T → Option (HeapState B)) (cas : Option Bool) :
    { x with help := help, log := log, cas := cas }.Owing t L len i where
  ready := ⟨⟨h.ready.chains.chains, h.ready.chains.mine, h.ready.chains.below⟩,
    ⟨h.ready.records.unsized, h.ready.records.sized⟩, h.ready.lens⟩
  apart := h.apart
  pending := h.pending
  frees := h.frees
  freeing := h.freeing

theorem Owing.stopped (h : x.Owing t L len i)
    (hlog : x.cas = none ∨ (x.cas = some false ∧ ∃ v last, x.log t = some (.remote i v last))) :
    x.FreeStopped t L len i := by
  rcases hlog with hcas | ⟨hcas, v, last, hlog⟩
  · exact .inl hcas
  · exact .inr ⟨v, last, hlog, .inl ⟨hcas, h⟩⟩

/-! ### The compare-exchange -/

variable [DecidableEq T] {v : Version} {old : Word T Remote}

omit [DecidableEq B] [DecidableEq T] in
/-- The counter stays above zero. -/
theorem Owing.paid (h : y.Owing t L len i) (new : Word T Remote)
    (hlog : y.log t = some (.remote i v false))
    {n : ℕ} (hn : n ≠ 0) (hold : old.inner.free = n + 1) (hnew : new.inner.free = n) :
    (y.advance t { y.toMem with toHeap := y.setWord (.remote i) new }
      (.casWord (.remote i) old new) none).Paid t L len := by
  have hst := h.ready.chains
  refine ⟨⟨⟨hst.chains, fun k j hj => ?_, hst.below⟩,
    ⟨h.ready.records.unsized, h.ready.records.sized⟩, h.ready.lens⟩, n, hn, ?_⟩
  · show j ∈ y.mine \ released _ (y.log t) ∪ acquired _ (y.log t)
    rw [hlog]
    exact .inl ⟨hst.mine k j hj, id⟩
  · show (old.inner.free, new.inner.free) :: y.frees = _
    rw [hold, hnew, h.frees]

omit [DecidableEq T] in
/-- The counter gets to zero, and the slab is the thread's. -/
theorem Owing.claiming (h : y.Owing t L len i) (new : Word T Remote) (hbelow : i.value < 2 ^ 32)
    (hlog : y.log t = some (.remote i v true)) (hold : old.inner.free = 1)
    (hnew : new.inner.free = 0) :
    let z := y.advance t { y.toMem with toHeap := y.setWord (.remote i) new }
      (.casWord (.remote i) old new) none
    z.Claiming t L len i ∧ z.Ready t L len := by
  intro z
  obtain ⟨htheirs, hmine, -⟩ := h.pending
  obtain ⟨⟨g, hg, hmem⟩, hdis, hap⟩ := h.apart
  have hmine' : ∀ j, j ∈ z.mine ↔ j ∈ y.mine ∨ j = i := by
    intro j
    show j ∈ y.mine \ released _ (y.log t) ∪ acquired _ (y.log t) ↔ _
    rw [hlog]
    exact or_congr_left ⟨fun h => h.1, fun h => ⟨h, id⟩⟩
  have htheirs' : ∀ j, j ∈ z.theirs ↔ j ∈ y.theirs ∧ j ≠ i := by
    intro j
    show j ∈ y.theirs \ acquired _ (y.log t) ↔ _
    rw [hlog]
    rfl
  have hst : z.Stacks t L :=
    ⟨h.ready.chains.chains, fun k j hj => (hmine' j).mpr (.inl (h.ready.chains.mine k j hj)),
      h.ready.chains.below⟩
  have hrecords : z.toHeap.Records t L := ⟨h.ready.records.unsized, h.ready.records.sized⟩
  refine ⟨⟨⟨(hmine' i).mpr (.inr rfl), hst.mine, hbelow,
    fun k hk => hmine (h.ready.chains.mine k i hk),
    hrecords, fun c => h.ready.lens (some c), .inl hst⟩,
    ⟨⟨g, hg, fun j => ?_⟩, fun j hj hj' => ?_, fun j hj => ?_⟩, ?_⟩, hst, hrecords, h.ready.lens⟩
  · rw [hmine', htheirs', hmem]
    by_cases hji : j = i
    · subst hji
      tauto
    · tauto
  · obtain ⟨hj', hji⟩ := (htheirs' j).mp hj'
    exact hdis j (((hmine' j).mp hj).resolve_right hji) hj'
  · by_cases hji : j = i
    · exact hji ▸ hbelow
    · exact hap j fun hj' => hj ((htheirs' j).mpr ⟨hj', hji⟩)
  · show (old.inner.free, new.inner.free) :: y.frees = _
    rw [hold, hnew, h.frees]

/-! ### The call -/

variable {cfg : Config} {α : Type} {Q : α → Tracked T B → Prop}
  {f : Option Remote → HeapCode T B α}

/-- The loop of the free: it ends with the counter changed. -/
theorem runs_freeLoop {n : ℕ} {w : Word T Remote} (hbelow : i.value < 2 ^ 32)
    (hpaid : ∀ a y, a.free ≠ 1 → y.log t = some (.remote i v false) → y.cas = some true →
      y.Paid t L len → Runs t (f (some a)) Q (FreeStopped t L len i) (· = .diverge) y)
    (hclaim : ∀ a y, a.free = 1 → y.log t = some (.remote i v true) → y.cas = some true →
      y.Claiming t L len i → y.Ready t L len →
      Runs t (f (some a)) Q (FreeStopped t L len i) (· = .diverge) y)
    (hw : 0 < w.inner.free) (hx : x.Owing t L len i)
    (hlog : x.cas = none ∨ (x.cas = some false ∧ ∃ v last, x.log t = some (.remote i v last))) :
    Runs t (Detectable.updateLoop t (.remote i) v (fun rem version => do
        if cfg.validate && rem.free == 0 then panic .remoteExhausted
        let next ← checkedSub rem.free 1
        pure (some (⟨next⟩, .remote i version (rem.free == 1)))) n w >>= f)
      Q (FreeStopped t L len i) (· = .diverge) x := by
  have hC : Stable (Leaves t) (FreeStopped t L len i) := freeStopped_stable
  induction n generalizing w x with
  | zero => exact runs_panic hC (hx.stopped hlog) rfl
  | succ n ih =>
    simp only [Detectable.updateLoop, bind_assoc]
    refine runs_help hC (hx.stopped hlog) fun help => ?_
    have hhelp := hx.write help x.log x.cas
    have hpos : (cfg.validate && w.inner.free == 0) = false := by
      rw [beq_false_of_ne (by omega), Bool.and_false]
    have hsub : (checkedSub w.inner.free 1 : HeapCode T B ℕ) =
      pure (w.inner.free - 1) := if_pos hw
    rw [hpos, hsub]
    simp only [Bool.false_eq_true, if_false, pure_bind]
    refine runs_log hC (hhelp.stopped hlog) ?_
    have hlog' : update x.log t (some (.remote i v (w.inner.free == 1))) t =
      some (.remote i v (w.inner.free == 1)) := update_self ..
    have hlogged := hx.write help (update x.log t (some (.remote i v (w.inner.free == 1))))
      (some false)
    refine runs_casWord hC (hlogged.stopped (.inr ⟨rfl, _, _, hlog'⟩)) (fun y hy hword => ?_)
      fun y hy => ?_
    · have hylog := hy.log.trans hlog'
      have hy := hlogged.leaves hy
      by_cases hone : w.inner.free = 1
      · rw [hone, beq_self_eq_true] at hylog
        obtain ⟨hclaiming, hready⟩ := hy.claiming ⟨some t, v, ⟨w.inner.free - 1⟩⟩ hbelow
          hylog hone (by rw [hone])
        exact hclaim _ _ hone hylog rfl hclaiming hready
      · rw [beq_false_of_ne hone] at hylog
        exact hpaid _ _ hone hylog rfl (hy.paid _ hylog (n := w.inner.free - 1) (by omega)
          (by omega) rfl)
    · exact ih (hlogged.leaves hy).pending.2.2 hlogged (.inr ⟨rfl, _, _, hlog'⟩)

theorem runs_freeAndClaim (hbelow : i.value < 2 ^ 32) (hx : x.Owing t L len i)
    (hlog : x.cas = none ∨ (x.cas = some false ∧ ∃ v last, x.log t = some (.remote i v last))) :
    Runs t (Heap.freeAndClaim cfg t i) (fun claimed w => Freed t L len i claimed w)
      (FreeStopped t L len i) (· = .diverge) x := by
  have hC : Stable (Leaves t) (FreeStopped t L len i) := freeStopped_stable
  have hc := hx.stopped hlog
  unfold Heap.freeAndClaim Detectable.update
  simp only [bind_assoc]
  refine runs_loadClass hC hc fun c => runs_record hC hc (runs_loadVersion hC hc
    (runs_storeHelp hC hc fun help => ?_))
  have hx := hx.write help x.log x.cas
  have hc := hx.stopped hlog
  refine runs_loadWord hC hc fun y hy => ?_
  refine runs_freeLoop hbelow (fun a y ha hlog hcas hy => ?_) (fun a y ha hlog hcas hy hready => ?_)
    (hx.leaves hy).pending.2.2 hx hlog
  · simp only [unwrap, pure_bind]
    rw [if_neg ha]
    exact runs_pure freed_stable hC (.inr ⟨_, _, hlog, .inr (.inl ⟨hcas, rfl, hy⟩)⟩)
      (.inl ⟨rfl, hy⟩)
  · have hclaiming : ∀ z : Tracked T B, z.Popped t L len i → z.log t = y.log t → z.cas = y.cas →
        z.frees = y.frees → (y.Apart → z.Apart) → z.FreeStopped t L len i :=
      fun z hz hzlog hzcas hzfrees hzap => .inr ⟨_, _, hzlog.trans hlog,
        .inr (.inr ⟨hzcas.trans hcas, rfl, hz, hzap hy.apart, hzfrees.trans hy.frees⟩)⟩
    simp only [unwrap, pure_bind]
    rw [if_pos ha]
    refine runs_record hC (hclaiming y hy.popped rfl rfl rfl id) ?_
    refine runs_place hC hy.popped hready hclaiming fun z hz hzready hzlog hzcas hzfrees hzap => ?_
    exact runs_pure freed_stable hC (hclaiming z hz hzlog hzcas hzfrees hzap)
      (.inr ⟨rfl, hzready, hzap hy.apart, hzfrees.trans hy.frees⟩)

/-! ### Recovery -/

/-- The counter was decremented once.  If the block was not the last one, the stacks are as
they were.  If it was, the slab is on the unsized stack and owned, or on the global one or
with another thread, who took it from there. -/
def FreeRecovered (t : T) (L : Option B → List (Index B)) (len : Option B → ℕ) (i : Index B)
    (w : Tracked T B) : Prop :=
  ∃ n, w.frees = [(n + 1, n)] ∧
    (n ≠ 0 → w.Stacks t L ∧ ∀ k, w.len (.of t k) = len k) ∧
    (n = 0 → ∃ ys g, ys <:+ i :: L none ∧ w.Stacks t (update L none ys) ∧
      Seg w.next w.global.inner g none ∧
      ((i ∈ ys ∧ w.owner i = some t ∧ i ∉ g ∧ i ∉ w.theirs) ∨
        ((∀ k, i ∉ update L none ys k) ∧ (i ∈ g ∨ i ∈ w.theirs))))

/-- The slab was claimed, in terms of whose it is. -/
structure Held (t : T) (L : Option B → List (Index B)) (i : Index B) (ys : List (Index B))
    (w : Tracked T B) : Prop where
  frees : w.frees = [(1, 0)]
  rest : ys <:+ i :: L none
  chains : w.Stacks t (update L none ys)
  apart : w.Apart
  place : (i ∈ ys ∧ w.owner i = some t) ∨ i ∉ w.mine

omit [DecidableEq T] in
theorem Held.leaves {ys : List (Index B)} (h : x.Held t L i ys) (hxy : Leaves t x y) :
    y.Held t L i ys where
  frees := hxy.frees.trans h.frees
  rest := h.rest
  chains := h.chains.leaves hxy
  apart := hxy.apart h.apart
  place := by
    rw [hxy.mine]
    refine h.place.imp_left fun ⟨hi, ho⟩ => ⟨hi, (hxy.owner i ?_).trans ho⟩
    exact h.chains.mine none i (by rw [update_self]; exact hi)

omit [DecidableEq T] in
theorem Held.recovered {ys : List (Index B)} (h : x.Held t L i ys) : x.FreeRecovered t L len i := by
  obtain ⟨⟨g, hg, hmem⟩, hdis, -⟩ := h.apart
  refine ⟨0, h.frees, fun h => absurd rfl h, fun _ => ⟨ys, g, h.rest, h.chains, hg, ?_⟩⟩
  rcases h.place with ⟨hi, ho⟩ | hi
  · have hmine : i ∈ x.mine := h.chains.mine none i (by rw [update_self]; exact hi)
    exact .inl ⟨hi, ho, fun hg => ((hmem i).mp hg).1 hmine, hdis i hmine⟩
  · refine .inr ⟨fun k hk => hi (h.chains.mine k i hk), ?_⟩
    by_cases htheirs : i ∈ x.theirs
    · exact .inr htheirs
    · exact .inl ((hmem i).mpr ⟨hi, htheirs⟩)

omit [DecidableEq T] in
theorem Paid.recovered (h : x.Paid t L len) : x.FreeRecovered t L len i := by
  obtain ⟨n, hn, hfrees⟩ := h.frees
  exact ⟨n, hfrees, fun _ => ⟨h.ready.chains, h.ready.lens⟩, fun h => absurd h hn⟩

/-- The slab is on the unsized stack, and `unsized_to_global` is run.  If the slab stays
there, it had better be owned. -/
theorem runs_shedClaimed (hpos : 1 ≤ cfg.batchGlobal) (hle : cfg.batchGlobal ≤ cfg.cacheLocal + 1)
    (hst : x.Stacks t (pushed L i)) (hlen : x.len (.unsized t) = (L none).length + 1)
    (hap : x.Apart) (hfrees : x.frees = [(1, 0)])
    (hvalid : cfg.validate = true → ∀ j ∈ pushed L i none, x.owner j = some t)
    (howner : x.owner i = some t ∨ cfg.cacheLocal ≤ (L none).length) :
    Runs t (Heap.unsizedToGlobal cfg t) (fun _ w => ∃ ys, w.Held t L i ys) (fun _ => True)
      (· = .diverge) x := by
  have hpushed : pushed L i none = i :: L none := update_self ..
  have hcount : x.len (.unsized t) = (pushed L i none).length := by
    rw [hpushed]
    exact hlen
  refine wpc_mono (runs_shed hst hcount hap hvalid hpos hle) (fun _ _ h => h) ?_ (fun _ h => h)
    (fun _ h => h)
  rintro - w (⟨hshort, hw⟩ | ⟨-, pre, tail, rest, hL, -, hw⟩)
  · rw [hpushed, List.length_cons] at hshort
    refine ⟨i :: L none, Held.leaves ⟨hfrees, List.suffix_refl _, hst, hap, .inl ⟨?_, ?_⟩⟩ hw⟩
    · exact List.mem_cons_self
    · exact howner.resolve_right (by omega)
  · have hchains := hw.chains
    rw [pushed, update_idem] at hchains
    rw [hpushed] at hL
    refine ⟨rest, hw.frees.trans hfrees, ⟨pre ++ [tail], ?_⟩, hchains, hw.apart,
      .inr (hw.gone i ?_)⟩
    · rw [hL, List.append_assoc, List.singleton_append]
    · cases pre with
      | nil => simp [(List.cons.inj hL).1]
      | cons p pre => simp [(List.cons.inj hL).1]

/-- The free is run again. -/
theorem runs_freeAgain [LawfulBracket B] (hpos : 1 ≤ cfg.batchGlobal)
    (hle : cfg.batchGlobal ≤ cfg.cacheLocal + 1) (hbelow : i.value < 2 ^ 32)
    (hlen : len none = (L none).length)
    (hvalid : cfg.validate = true → ∀ k, len k = (L k).length) (hx : x.Owing t L len i)
    (hlog : x.cas = some false ∧ ∃ v last, x.log t = some (.remote i v last)) :
    Runs t (Heap.freeRemote cfg t i) (fun _ w => w.Paid t L len ∨ ∃ ys, w.Held t L i ys)
      (fun _ => True) (· = .diverge) x := by
  have hC : Stable (Leaves t) fun _ : Tracked T B => True := fun _ _ _ _ => trivial
  rw [Heap.freeRemote_eq]
  refine runs_bind.mpr (wpc_mono (runs_freeAndClaim hbelow hx (.inr hlog)) (fun _ _ h => h) ?_
    (fun _ _ => trivial) (fun _ h => h))
  rintro claimed w (⟨rfl, hw⟩ | ⟨rfl, hw, hap, hfrees⟩)
  · refine runs_pure (fun y z hyz h => ?_) hC trivial (.inl hw)
    exact h.imp (·.leaves hyz) fun ⟨ys, hy⟩ => ⟨ys, hy.leaves hyz⟩
  · simp only [if_true]
    have hlens : ∀ k, (∀ k, len k = (L k).length) →
        update len none (len none + 1) k = (pushed L i k).length := by
      intro k hk
      cases k with
      | none => rw [update_self, pushed, update_self, hk, List.length_cons]
      | some c => rw [update_of_ne (by simp), pushed, update_of_ne (by simp), hk]
    refine runs_validateOwned hC trivial (fun hv y hy => ?_) ?_
    · exact (hw.leaves hy).isValid_iff.mpr fun k => hlens k (hvalid hv)
    · refine wpc_mono (runs_shedClaimed hpos hle hw.chains ?_ hap hfrees
        (fun _ j hj => hw.records.unsized j hj) (.inl (hw.records.unsized i ?_))) (fun _ _ h => h)
        (fun _ _ h => .inr h) (fun _ h => h) (fun _ h => h)
      · exact (hw.lens none).trans (by rw [update_self, hlen])
      · rw [pushed, update_self]
        exact List.mem_cons_self

/-- The slab was claimed: recovery puts it on the unsized stack, with the owner it has. -/
theorem runs_reclaim {E : Panic → Prop} {g : Unit → HeapCode T B α}
    (hz : z.Claiming t L len i)
    (hk : ∀ y : Tracked T B, y.Stacks t (pushed L i) → y.len (.unsized t) = (L none).length + 1 →
      y.Apart → y.frees = [(1, 0)] → y.owner = z.owner → Runs t (g ()) Q (fun _ => True) E y) :
    Runs t (Stack.recoverPush (.unsized t) i >>= g) Q (fun _ => True) E z := by
  have hpushed : pushed L i none = i :: L none := update_self ..
  refine runs_recoverPush hz.popped.mine hz.popped.onTop hz.popped.offTop
    fun next head hnext hy => hk _ hy ?_ ?_ hz.frees rfl
  · exact (update_self ..).trans (by rw [hpushed]; rfl)
  · exact hz.apart.congr rfl rfl rfl fun j hj =>
      hnext j fun heq => hj (heq ▸ hz.popped.mine)

/-- With checks on, a slab of somebody else is not handed out. -/
theorem runs_unsizedToGlobal_foreign {rest : List (Index B)} (hst : x.Stacks t L)
    (hL : L none = i :: rest) (hlen : cfg.cacheLocal < x.len (.unsized t))
    (hv : cfg.validate = true) (howner : x.owner i ≠ some t) (hpos : 1 ≤ cfg.batchGlobal) :
    Runs t (Heap.unsizedToGlobal cfg t) (fun _ _ => False) (fun _ => True) (· = .disownForeign)
      x := by
  have hC : Stable (Leaves t) fun _ : Tracked T B => True := fun _ _ _ _ => trivial
  have hi : i ∈ x.mine := hst.mine none i (by simp [hL])
  have hhead : x.head (.unsized t) = some i := (hst.chains.head_eq none).trans (by rw [hL]; rfl)
  obtain ⟨n, hn⟩ := Nat.exists_eq_add_of_le' hpos
  unfold Heap.unsizedToGlobal Stack.peek
  refine runs_loadLen hC trivial rfl ?_
  rw [if_neg (not_le.mpr hlen)]
  refine runs_record hC trivial (runs_loadHead hC trivial rfl ?_)
  rw [hhead, hn]
  simp only [Heap.takeBatch, hv, if_true, Slab.disown, bind_assoc]
  refine runs_loadNext hC trivial hi (runs_loadOwner hC trivial hi ?_)
  rw [if_pos howner]
  simp only [bind_assoc]
  exact runs_panic hC trivial rfl

variable [Fintype T]

/-- The compare-exchange took effect, and the block was the last one of its slab. -/
def Claims (t : T) (i : Index B) (z : Tracked T B) : Prop :=
  z.cas = some true ∧ ∃ v, z.log t = some (.remote i v true)

/-- A claim that is not owned is not recovered, unless the slab goes to the global stack
anyway and nobody checks. -/
theorem Claiming.not_recovered (e : Others T B t) (hz : z.Claiming t L len i)
    (hlog : z.log t = some (.remote i v true)) (hcas : z.cas = some true)
    (hdetect : e.Detects (.remote i) v z) (hpos : 1 ≤ cfg.batchGlobal)
    (howner : z.owner i ≠ some t) (hkept : cfg.validate = true ∨ (L none).length < cfg.cacheLocal)
    (hrecovers : wpc (handle t) e.acts (Heap.recover cfg t)
      (fun _ w => FreeRecovered t L len i w) (fun _ => True) (· = .diverge) z) : False := by
  have hC : Stable (Leaves t) fun _ : Tracked T B => True := fun _ _ _ _ => trivial
  by_cases hlen : (L none).length < cfg.cacheLocal
  · -- The slab stays on the unsized stack.
    have hrun : wpc (handle t) e.acts (Heap.recover cfg t)
        (fun _ w => w.frees = [(1, 0)] ∧ w.Stacks t (pushed L i) ∧ w.owner i ≠ some t)
        (fun _ => True) (fun _ => False) z := by
      refine wpc_recover_detect e hlog hdetect rfl fun took y htook hy => ?_
      obtain rfl : true = took := Option.some.inj (hcas.symm.trans htook)
      refine runs_stable z y (e.leaves z y hy) (runs_reclaim hz fun y hst hcount _ hfrees ho => ?_)
      refine wpc_mono (runs_unsizedToGlobal_short hC trivial (by rw [hcount]; exact hlen))
        (fun _ _ h => h) (fun _ w hw => ⟨hw.frees.trans hfrees, hst.leaves hw, ?_⟩) (fun _ h => h)
        (fun _ h => h)
      rw [hw.owner i (hst.mine none i (by rw [pushed, update_self]; exact List.mem_cons_self)), ho]
      exact howner
    obtain ⟨_, w, hexec, hfrees, hst, ho⟩ := wp_returns (wpc_wp e.refl hrun)
    obtain ⟨n, hn, -, hlast⟩ := wp_ok (wpc_wp e.refl hrecovers) hexec
    obtain rfl : n = 0 := by
      have := hfrees.symm.trans hn
      simp only [List.cons.injEq, Prod.mk.injEq, and_true] at this
      exact this.2.symm
    obtain ⟨ys, g, -, hys, -, hplace⟩ := hlast rfl
    have hchain := (hys.chains.seg none).unique (hst.chains.seg none)
    rw [update_self, pushed, update_self] at hchain
    rcases hplace with ⟨-, howned, -⟩ | ⟨hout, -⟩
    · exact ho howned
    · refine hout none ?_
      rw [update_self, hchain]
      exact List.mem_cons_self
  · have hrun : wpc (handle t) e.acts (Heap.recover cfg t) (fun _ _ => False) (fun _ => True)
        (· = .disownForeign) z := by
      refine wpc_recover_detect e hlog hdetect rfl fun took y htook hy => ?_
      obtain rfl : true = took := Option.some.inj (hcas.symm.trans htook)
      refine runs_stable z y (e.leaves z y hy) (runs_reclaim hz fun y hst hcount _ _ ho => ?_)
      exact runs_unsizedToGlobal_foreign hst (update_self ..) (by omega) (hkept.resolve_right hlen)
        (by rw [ho]; exact howner) hpos
    cases hexec : (Heap.recover cfg t).exec (handle t) z with
    | ok r => exact wp_ok (wpc_wp e.refl hrun) hexec
    | error p =>
      have hforeign := wp_error (wpc_wp e.refl hrun) hexec
      have hdiverge := wp_error (wpc_wp e.refl hrecovers) hexec
      exact absurd (hforeign.symm.trans hdiverge) (by simp)

/-- A claim is recovered if the slab is owned, or goes to the global stack unchecked. -/
theorem Claiming.recovers (e : Others T B t) (hz : z.Claiming t L len i)
    (hlog : z.log t = some (.remote i v true)) (hcas : z.cas = some true)
    (hdetect : e.Detects (.remote i) v z) (hpos : 1 ≤ cfg.batchGlobal)
    (hle : cfg.batchGlobal ≤ cfg.cacheLocal + 1)
    (howner : z.owner i = some t ∨ (cfg.validate = false ∧ cfg.cacheLocal ≤ (L none).length)) :
    wpc (handle t) e.acts (Heap.recover cfg t) (fun _ w => FreeRecovered t L len i w)
      (fun _ => True) (· = .diverge) z := by
  refine wpc_recover_detect e hlog hdetect rfl fun took y htook hy => ?_
  obtain rfl : true = took := Option.some.inj (hcas.symm.trans htook)
  refine runs_stable z y (e.leaves z y hy) (runs_reclaim hz fun y hst hcount hap hfrees ho => ?_)
  refine wpc_mono (runs_shedClaimed hpos hle hst hcount hap hfrees (fun hv j hj => ?_) ?_)
    (fun _ _ h => h) (fun _ w ⟨ys, hw⟩ => hw.recovered) (fun _ h => h) (fun _ h => h)
  · rw [ho]
    rcases howner with howner | ⟨hoff, -⟩
    · rcases Chains.mem_push.mp hj with hj | ⟨rfl, -⟩
      · exact hz.popped.records.unsized j hj
      · exact howner
    · exact absurd (hoff.symm.trans hv) (by simp)
  · rw [ho]
    exact howner.imp_right fun h => h.2

omit [DecidableEq B] [DecidableEq T] [Fintype T] in
/-- A live block of a slab that is not the thread's is one to free remotely. -/
theorem pending_start {m : Mem T B (HeapState B)} {a : Ledger T B} (inv : Inv cfg m.toHeap a)
    (hlive : (a.live i).Nonempty) (howner : m.owner i ≠ some t) :
    (start t m (some i)).Pending i := by
  obtain ⟨k, hk⟩ := hlive
  obtain ⟨hbusy, -⟩ := inv.busy_of_live hk
  have hne : a.live i ≠ ∅ := Finset.ne_empty_of_mem hk
  have hmine : i ∉ (start t m (some i)).mine := by
    rw [mem_mine_start inv]
    rintro ⟨c, hi⟩
    cases c with
    | none => exact hne ((inv.slab i).unsized t hi).1
    | some c => exact howner ((inv.slab i).sized t c hi).2.1
  refine ⟨(mem_theirs_start inv).mpr ⟨hmine, fun hi => hne ((inv.slab i).global hi).1⟩, hmine, ?_⟩
  have hpos := Finset.card_pos.mpr ⟨k, hk⟩
  have hcounter := hbusy.counter
  show 0 < (m.remote i).inner.free
  omega

/-- **A crash in a remote free is recovered exactly if the slab it claims, if any, names the
thread as its owner already, or goes to the global stack unchecked.** -/
theorem freeRemote_recovers_iff [LawfulBracket B] (e : Others T B t) {m : Mem T B (HeapState B)}
    {a : Ledger T B} (inv : Inv cfg m.toHeap a) (hpos : 1 ≤ cfg.batchGlobal)
    (hle : cfg.batchGlobal ≤ cfg.cacheLocal + 1)
    (hcount : m.len (.unsized t) = (a.chain (some (.unsized t))).length)
    (hvalid : cfg.validate = true → m.toHeap.isValid t = true) (hlive : (a.live i).Nonempty)
    (howner : m.owner i ≠ some t)
    (hstop : Stops (handle t) e.acts (Heap.freeAndClaim cfg t i) (start t m (some i)) z)
    (hlogged : z.cas ≠ none) (hdetect : ∀ r ∈ z.log t, e.Exact z r) :
    wpc (handle t) e.acts (Heap.recover cfg t)
      (fun _ w => FreeRecovered t (fun k => a.chain (some (.of t k))) (fun k => m.len (.of t k)) i w)
      (fun _ => True) (· = .diverge) z ↔
    (z.Claims t i → z.owner i = some t ∨
      (cfg.validate = false ∧ cfg.cacheLocal ≤ m.len (.unsized t))) := by
  have hready : (start t m (some i)).Ready t (fun k => a.chain (some (.of t k)))
      (fun k => m.len (.of t k)) :=
    ⟨stacks_start inv, (inv.owned t).toRecords, fun _ => rfl⟩
  have hlens : cfg.validate = true →
      ∀ k, m.len (.of t k) = (a.chain (some (.of t k))).length :=
    fun hv => hready.isValid_iff.mp (hvalid hv)
  have hbelow : i.value < 2 ^ 32 :=
    (inv.busy_of_live hlive.choose_spec).2.1.trans inv.bound
  have howing : (start t m (some i)).Owing t (fun k => a.chain (some (.of t k)))
      (fun k => m.len (.of t k)) i :=
    ⟨hready, apart_start inv, pending_start inv hlive howner, rfl, rfl⟩
  have hstops : Runs t (Heap.freeAndClaim cfg t i) _ _ _ _ :=
    runs_freeAndClaim hbelow howing (.inl rfl)
  rcases wpc_stops hstops (hstop.mono e.leaves) with hcas | ⟨v, last, hlog, hz⟩
  · exact absurd hcas hlogged
  have hd : e.Detects (.remote i) v z := hdetect _ hlog
  rcases hz with ⟨hcas, hz⟩ | ⟨hcas, rfl, hz⟩ | ⟨hcas, rfl, hz⟩
  · refine iff_of_true ?_ fun hclaims => absurd (hcas.symm.trans hclaims.1) (by simp)
    refine wpc_recover_detect e hlog hd rfl fun took y htook hy => ?_
    obtain rfl : false = took := Option.some.inj (hcas.symm.trans htook)
    have hy := e.leaves z y hy
    refine wpc_mono (runs_freeAgain hpos hle hbelow hcount hlens (hz.leaves hy)
      ⟨hy.cas.trans hcas, v, last, hy.log.trans hlog⟩) (fun _ _ h => h) ?_ (fun _ h => h)
      (fun _ h => h)
    rintro - w (hw | ⟨ys, hw⟩)
    · exact hw.recovered
    · exact hw.recovered
  · refine iff_of_true ?_ ?_
    · refine wpc_recover_detect e hlog hd rfl fun took y htook hy => ?_
      obtain rfl : true = took := Option.some.inj (hcas.symm.trans htook)
      exact fun w hw => ⟨trivial, ((hz.leaves (e.leaves z y hy)).leaves hw).recovered⟩
    · rintro ⟨-, w, hlast⟩
      cases hlog.symm.trans hlast
  · constructor
    · intro hrecovers _
      by_contra hno
      rw [not_or, not_and_or, Bool.not_eq_false, not_le] at hno
      rw [hcount] at hno
      exact hz.not_recovered e hlog hcas hd hpos hno.1 hno.2 hrecovers
    · intro hclaims
      rw [hcount] at hclaims
      exact hz.recovers e hlog hcas hd hpos hle (hclaims ⟨hcas, v, hlog⟩)

/-! ### The owner before and after it is written -/

/-- Room for one slab on the unsized stack. -/
def keepOne : Config :=
  { Config.initial false with cacheLocal := 1 }

/-- Thread 0 allocates both blocks of a slab, and thread 2 frees one of them. -/
def oneLeft : List (Call (Fin 3) Large) :=
  [.allocate 0 ⟨8⟩, .allocate 0 ⟨8⟩, .free 2 (Offset.fromBlock ⟨8⟩ .min ⟨0, 0⟩)]

/-- Thread 1 of `s` stops after `n` accesses of the other free. -/
def claiming (s : Running (Fin 3) Large (HeapState Large)) (n : ℕ) : Tracked (Fin 3) Large :=
  stopAt (handle 1) n (Heap.freeAndClaim keepOne 1 .min) (start 1 s.mem (some .min))

/-- Thread 1 owns the slab, and stops before it puts it on its unsized stack. -/
theorem freeRemote_recovers_owned :
    ∃ (s : Running (Fin 3) Large (HeapState Large)) (a : Ledger (Fin 3) Large),
    (claiming s 12).Claims 1 .min ∧
    wpc (handle 1) (Others.idle 1).acts (Heap.recover keepOne 1)
      (fun _ w => FreeRecovered 1 (fun k => a.chain (some (.of 1 k)))
        (fun k => s.mem.len (.of 1 k)) .min w)
      (fun _ => True) (· = .diverge) (claiming s 12) := by
  obtain ⟨s, hs, hlive, hforeign, hhead, hlen, hcas, howner, hlog, hdetect⟩ :
      ∃ s : Running (Fin 3) Large (HeapState Large),
      Running.script Session.TidyCall keepOne oneLeft .zeroed = some s ∧
      (Offset.fromBlock ⟨8⟩ .min ⟨1, 0⟩ ∈ s.live ∧ s.heap.owner .min ≠ some 1 ∧
        s.heap.head (.unsized 1) = none ∧ s.heap.len (.unsized 1) = 0 ∧
        (claiming s 12).cas = some true ∧ (claiming s 12).owner .min = some 1 ∧
        (claiming s 12).log 1 = some (.remote .min 1 true) ∧
        ((Detectable.detect 1 (.remote .min) 1).exec (handle 1) (claiming s 12)).toOption.any
          (fun r => r.1 = true) = true) :=
    Session.exists_of_any (by decide +kernel)
  obtain ⟨⟨_, _⟩, hdetect, rfl⟩ := exists_of_ok hdetect
  obtain ⟨a, tr, -⟩ := Session.exact_run (by decide) (by decide) (by decide) (by decide)
    (Running.run_of_script hs)
  have hchain : a.chain (some (.unsized 1)) = [] :=
    (tr.inv.chains.seg (some (.unsized 1))).unique hhead
  obtain ⟨i, b, hb, -, hidx⟩ := tr.exists_block hlive
  obtain rfl : Index.min = i := Option.some.inj ((by decide +kernel :
    (Offset.fromBlock (⟨8⟩ : Large) .min ⟨1, 0⟩).intoIndex = some .min).symm.trans hidx)
  refine ⟨s, a, ⟨hcas, 1, hlog⟩, (freeRemote_recovers_iff (Others.idle 1) tr.inv (by decide)
    (by decide) (hlen.trans (by rw [hchain]; rfl)) (fun h => absurd h (by decide)) ⟨_, hb⟩ hforeign
    (stops_stopAt (Others.idle 1).refl 12 _ _) (fun h => absurd (hcas.symm.trans h) (by simp))
    ?_).mpr fun _ => .inl howner⟩
  intro r hr
  obtain rfl := Option.some.inj (hlog.symm.trans hr)
  exact detects_idle hdetect hcas

/-- Thread 1 stops right after its compare-exchange.  After recovery the slab is on its
unsized stack, and thread 0 is the owner. -/
theorem freeRemote_foreign : ∃ s : Running (Fin 3) Large (HeapState Large),
    ReflTransGen (Session.TidyStep (HeapState Large) keepOne) Session.zeroed s.toSession ∧
    s.Legal (.free 1 (Offset.fromBlock ⟨8⟩ .min ⟨1, 0⟩)) ∧
    (claiming s 8).Claims 1 .min ∧
    (∀ r ∈ (claiming s 8).log 1, (Others.idle 1).Exact (claiming s 8) r) ∧
    ∃ w, (Heap.recover keepOne 1).exec (handle 1) (claiming s 8) = .ok ((), w) ∧
      w.head (.unsized 1) = some .min ∧ w.owner .min = some 0 ∧
      ∀ L len, ¬ FreeRecovered 1 L len .min w := by
  obtain ⟨s, hs, hlegal, hcas, hlog, hdetect, hw⟩ :
      ∃ s : Running (Fin 3) Large (HeapState Large),
      Running.script Session.TidyCall keepOne oneLeft .zeroed = some s ∧
      (s.Legal (.free 1 (Offset.fromBlock ⟨8⟩ .min ⟨1, 0⟩)) ∧
        (claiming s 8).cas = some true ∧ (claiming s 8).log 1 = some (.remote .min 1 true) ∧
        ((Detectable.detect 1 (.remote .min) 1).exec (handle 1) (claiming s 8)).toOption.any
          (fun r => r.1 = true) = true ∧
        ((Heap.recover keepOne 1).exec (handle 1) (claiming s 8)).toOption.any (fun r =>
          r.2.head (.unsized 1) = some .min ∧ r.2.owner .min = some 0 ∧
            r.2.frees = [(1, 0)]) = true) :=
    Session.exists_of_any (by decide +kernel)
  obtain ⟨⟨_, _⟩, hdetect, rfl⟩ := exists_of_ok hdetect
  obtain ⟨⟨_, w⟩, hrun, hhead, howner, hfrees⟩ := exists_of_ok hw
  refine ⟨s, Running.run_of_script hs, hlegal, ⟨hcas, 1, hlog⟩, fun r hr => ?_, w, hrun, hhead,
    howner, ?_⟩
  · obtain rfl := Option.some.inj (hlog.symm.trans hr)
    exact detects_idle hdetect hcas
  · rintro L len ⟨n, hn, -, hlast⟩
    obtain rfl : n = 0 := by
      have := hfrees.symm.trans hn
      simp only [List.cons.injEq, Prod.mk.injEq, and_true] at this
      exact this.2.symm
    obtain ⟨ys, g, -, hst, -, ⟨-, howned, -⟩ | ⟨hout, -⟩⟩ := hlast rfl
    · exact absurd (howner.symm.trans howned) (by decide)
    · exact hout none (List.mem_of_mem_head? ((hst.chains.head_eq none).symm.trans hhead))

end Tracked

end Cxlalloc
