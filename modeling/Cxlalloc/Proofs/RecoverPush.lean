/-
Recovery from a crash while a batch of slabs goes to the global stack.

`unsized_to_global` takes the batch off the unsized stack, links its last slab to the top
of the global stack, and exchanges that top for the first slab of the batch.  Recovery
that finds the exchange not done puts the first slab back on the unsized stack and counts
what hangs off it.  That is the old stack as long as the last slab of the batch still
leads to the rest of it.  Once it leads to the global stack, recovery takes that stack for
the thread's, and the rest is lost.
-/
import Cxlalloc.Proofs.Crash
import Cxlalloc.Proofs.Session

namespace Cxlalloc

open Lib (Chains Seg seg_append)
open Lib.Prog
open Cxlalloc.Bracket
open Function
open Relation

namespace Tracked

variable {T B : Type} [Bracket B] {t : T} {x y z : Tracked T B}
  {L : Option B → List (Index B)} {i tail : Index B} {pre rest : List (Index B)}

/-! ### The batch -/

variable {xs : List (Index B)}

section Batch

variable [DecidableEq T] [DecidableEq B] {α : Type} {cfg : Config}
  {Q : α → Tracked T B → Prop} {C : Tracked T B → Prop} {E : Panic → Prop}

/-- The first slabs of a list of the thread are collected; with checks on, they are
disowned as well. -/
theorem runs_takeBatch (hC : Stable (Leaves t) C) {n : ℕ} {h : Option (Index B)}
    {f : List (Index B) → HeapCode T B α}
    (hseg : Seg x.next h xs none) (hmine : ∀ i ∈ xs, i ∈ x.mine)
    (howner : cfg.validate = true → ∀ i ∈ xs, x.owner i = some t)
    (hc : ∀ owner last, (∀ j, j ∉ xs → owner j = x.owner j) →
      (cfg.validate = false → owner = x.owner) →
      C { x with owner := owner, lastOwner := last })
    (hk : ∀ owner last, (∀ j, j ∉ xs.take n → owner j = x.owner j) →
      (cfg.validate = false → owner = x.owner) →
      Runs t (f (xs.take n)) Q C E { x with owner := owner, lastOwner := last }) :
    Runs t (Heap.takeBatch cfg t n h >>= f) Q C E x := by
  induction n generalizing x h xs f with
  | zero => exact hk x.owner x.lastOwner (fun _ _ => rfl) fun _ => rfl
  | succ n ih =>
    cases xs with
    | nil =>
      obtain rfl : h = none := hseg
      exact hk x.owner x.lastOwner (fun _ _ => rfl) fun _ => rfl
    | cons i xs =>
      have hnd := hseg.nodup
      obtain ⟨rfl, hseg⟩ := hseg
      obtain ⟨hi, -⟩ := List.nodup_cons.mp hnd
      have hcx : C x := hc x.owner x.lastOwner (fun _ _ => rfl) fun _ => rfl
      have hmine' : ∀ j ∈ xs, j ∈ x.mine := fun j hj => hmine j (by simp [hj])
      simp only [Heap.takeBatch, bind_assoc]
      refine runs_loadNext hC hcx (hmine i (by simp)) ?_
      cases hv : cfg.validate with
      | false =>
        simp only [Bool.false_eq_true, if_false, bind_assoc]
        refine ih hseg hmine' (fun h => absurd (hv.symm.trans h) (by simp)) ?_ ?_
        · intro owner last _ heq
          exact hc owner last (fun j _ => congrFun (heq hv) j) heq
        · intro owner last _ heq
          exact hk owner last (fun j _ => congrFun (heq hv) j) heq
      | true =>
        simp only [if_true, Slab.disown, hv, bind_assoc]
        refine runs_loadOwner hC hcx (hmine i (by simp)) ?_
        rw [howner hv i (by simp), if_neg (not_not.mpr rfl)]
        refine runs_storeOwner hC hcx ?_
        refine ih hseg hmine' (fun _ j hj => ?_) ?_ ?_
        · have hji : j ≠ i := fun heq => hi (heq ▸ hj)
          exact (update_of_ne hji _ _).trans (howner hv j (by simp [hj]))
        · intro owner last hoff _
          refine hc owner last (fun j hj => ?_) fun h => absurd (hv.symm.trans h) (by simp)
          obtain ⟨hji, hj⟩ := not_or.mp (mt List.mem_cons.mpr hj)
          exact (hoff j hj).trans (update_of_ne hji _ _)
        · intro owner last hoff _
          refine hk owner last (fun j hj => ?_) fun h => absurd (hv.symm.trans h) (by simp)
          obtain ⟨hji, hj⟩ := not_or.mp (mt List.mem_cons.mpr hj)
          exact (hoff j hj).trans (update_of_ne hji _ _)

theorem runs_flushBatch (hC : Stable (Leaves t) C) {n : ℕ} {h : Option (Index B)}
    {f : Unit → HeapCode T B α}
    (hseg : Seg x.next h xs none) (hmine : ∀ i ∈ xs, i ∈ x.mine) (hc : C x)
    (hk : Runs t (f ()) Q C E x) : Runs t (Heap.flushBatch n h >>= f) Q C E x := by
  induction n generalizing h xs with
  | zero => exact hk
  | succ n ih =>
    cases xs with
    | nil =>
      obtain rfl : h = none := hseg
      exact hk
    | cons i xs =>
      obtain ⟨rfl, hseg⟩ := hseg
      simp only [Heap.flushBatch, bind_assoc]
      refine runs_loadNext hC hc (hmine i (by simp)) (runs_flushCxl hC hc ?_)
      exact ih hseg fun j hj => hmine j (by simp [hj])

end Batch

/-! ### The batch between the two stacks -/

section

variable [DecidableEq B]

/-- The batch is on its way: its slabs still lead to the last one, which leads to the rest
of the unsized stack or to a slab that is not the thread's. -/
structure Loose (t : T) (L : Option B → List (Index B)) (pre : List (Index B)) (tail : Index B)
    (rest : List (Index B)) (fr : List (ℕ × ℕ)) (y : Tracked T B) : Prop where
  chains : Chains y.next (update (fun k => y.head (.of t k)) none rest.head?) (update L none rest)
  batch : Seg y.next (L none).head? pre (some tail)
  link : y.next tail = rest.head? ∨ ∀ v ∈ y.next tail, v ∉ y.mine
  lists : ∀ k, ∀ i ∈ L k, i ∈ y.mine
  apart : y.Apart
  frees : y.frees = fr

/-- The unsized stack is the rest. -/
structure Cut (t : T) (rest : List (Index B)) (y : Tracked T B) : Prop where
  head : y.head (.unsized t) = rest.head?
  len : y.len (.unsized t) = rest.length

/-- The batch is the thread's no more. -/
structure Handed (t : T) (L : Option B → List (Index B)) (pre : List (Index B)) (tail : Index B)
    (rest : List (Index B)) (fr : List (ℕ × ℕ)) (y : Tracked T B) : Prop where
  chains : y.Stacks t (update L none rest)
  len : y.len (.unsized t) = rest.length
  gone : ∀ i ∈ pre ++ [tail], i ∉ y.mine
  apart : y.Apart
  frees : y.frees = fr

variable {fr : List (ℕ × ℕ)} {h : Index B}

theorem Loose.leaves (hL : L none = pre ++ tail :: rest) (hy : y.Loose t L pre tail rest fr)
    (hyz : Leaves t y z) : z.Loose t L pre tail rest fr where
  chains := by
    have hheads : (fun k => z.head (.of t k)) = fun k : Option B => y.head (.of t k) :=
      funext fun k => hyz.head _ StackId.thread_of
    rw [hheads]
    refine hy.chains.frame fun k i hi => hyz.next i ?_
    by_cases hk : k = none
    · rw [hk, update_self] at hi
      exact hy.lists none i (by simp [hL, hi])
    · rw [update_of_ne hk] at hi
      exact hy.lists k i hi
  batch := hy.batch.congr fun i hi => hyz.next i (hy.lists none i (by simp [hL, hi]))
  link := by
    rw [hyz.next tail (hy.lists none tail (by simp [hL])), hyz.mine]
    exact hy.link
  lists := hyz.mine ▸ hy.lists
  apart := hyz.apart hy.apart
  frees := hyz.frees.trans hy.frees

theorem Handed.leaves (hy : y.Handed t L pre tail rest fr) (hyz : Leaves t y z) :
    z.Handed t L pre tail rest fr where
  chains := hy.chains.leaves hyz
  len := (hyz.len _ rfl).trans hy.len
  gone := hyz.mine ▸ hy.gone
  apart := hyz.apart hy.apart
  frees := hyz.frees.trans hy.frees

/-- As long as the last slab leads to the rest, the old stack hangs off the first one. -/
theorem Loose.whole (hL : L none = pre ++ tail :: rest) (hy : y.Loose t L pre tail rest fr)
    (hdis : ∀ k k' i, i ∈ L k → i ∈ L k' → k = k') (hlink : y.next tail = rest.head?) :
    Chains y.next (update (fun k => y.head (.of t k)) none (L none).head?) L := by
  have hrest := hy.chains.seg none
  rw [update_self, update_self] at hrest
  have hseg : Seg y.next (L none).head? (L none) none := by
    have hseg : Seg y.next (L none).head? (pre ++ tail :: rest) none :=
      seg_append.mpr ⟨some tail, hy.batch, rfl, hlink ▸ hrest⟩
    rwa [← hL] at hseg
  have hchains : Chains y.next _ (update (update L none rest) none (L none)) :=
    hy.chains.replace (fun _ _ _ _ => rfl) hseg fun k hk i hi hik => by
      rw [update_of_ne hk] at hik
      exact hk (hdis k none i hik hi)
  rw [update_idem, update_idem, update_eq_self] at hchains
  exact hchains

/-- The last slab is the only one whose link is rewritten. -/
theorem Loose.linked_iff (hx : x.Stacks t L) (hL : L none = pre ++ tail :: rest)
    (hy : y.Loose t L pre tail rest fr) :
    y.next tail = rest.head? ↔ ∀ i ∈ L none, y.next i = x.next i := by
  have hseg := hx.chains.seg none
  constructor
  · intro hlink i hi
    have hwhole := (hy.whole hL hx.chains.disjoint hlink).seg none
    rw [update_self] at hwhole
    rw [hx.chains.head_eq none] at hseg
    exact hseg.next_congr hwhole hi
  · intro hlinks
    rw [hL] at hseg
    exact (hlinks tail (by simp [hL])).trans hseg.next_eq

/-- The record of the transition is there. -/
def Logged (t : T) (h : Index B) (z : Tracked T B) : Prop :=
  z.log t = some (.unsizedToGlobalSave h) ∨ ∃ v, z.log t = some (.unsizedToGlobal h v)

/-- The stacks are as they were, and so is the record. -/
structure Untouched (t : T) (L : Option B → List (Index B)) (x z : Tracked T B) : Prop where
  log : z.log t = x.log t
  cas : z.cas = x.cas
  chains : z.Stacks t L
  len : z.len (.unsized t) = (L none).length
  apart : z.Apart

omit [DecidableEq B] in
theorem Untouched.leaves (hy : Untouched t L x y) (hyz : Leaves t y z) : Untouched t L x z where
  log := hyz.log.trans hy.log
  cas := hyz.cas.trans hy.cas
  chains := hy.chains.leaves hyz
  len := (hyz.len _ rfl).trans hy.len
  apart := hyz.apart hy.apart

/-- Where the transition may be stopped: before its record, before the compare-exchange
takes effect, and after. -/
def PushStopped (t : T) (L : Option B → List (Index B)) (pre : List (Index B)) (tail : Index B)
    (rest : List (Index B)) (h : Index B) (x z : Tracked T B) : Prop :=
  Untouched t L x z ∨
  (z.Logged t h ∧ z.cas = some false ∧ z.Loose t L pre tail rest x.frees) ∨
  ((∃ v, z.log t = some (.unsizedToGlobal h v)) ∧ z.cas = some true ∧
    z.Handed t L pre tail rest x.frees)

omit [DecidableEq B] in
theorem Logged.leaves (hy : y.Logged t h) (hyz : Leaves t y z) : z.Logged t h := by
  unfold Logged
  rw [hyz.log]
  exact hy

theorem pushStopped_stable (hL : L none = pre ++ tail :: rest) :
    Stable (Leaves t) (PushStopped t L pre tail rest h x) := by
  rintro y z hyz (hy | ⟨hlog, hcas, hy⟩ | ⟨⟨v, hlog⟩, hcas, hy⟩)
  · exact .inl (hy.leaves hyz)
  · exact .inr (.inl ⟨hlog.leaves hyz, hyz.cas.trans hcas, hy.leaves hL hyz⟩)
  · exact .inr (.inr ⟨⟨v, hyz.log.trans hlog⟩, hyz.cas.trans hcas, hy.leaves hyz⟩)

/-! ### The transition -/

variable [DecidableEq T]

omit [DecidableEq T] in
/-- The last slab of the batch is linked to what the thread saw on the global stack. -/
theorem Loose.relink (hx : x.Stacks t L) (hL : L none = pre ++ tail :: rest)
    (hy : y.Loose t L pre tail rest fr) {v : Option (Index B)} (hv : ∀ u ∈ v, u ∉ y.mine)
    (log : T → Option (HeapState B)) (cas : Option Bool) :
    { y with next := update y.next tail v, log := log, cas := cas }.Loose t L pre tail rest fr := by
  have hL' : L none = (pre ++ [tail]) ++ rest := by simp [hL]
  have hnd := hx.chains.nodup none
  rw [hL'] at hnd
  have htail : tail ∈ y.mine := hy.lists none tail (by simp [hL])
  refine ⟨?_, ?_, .inr ?_, hy.lists, ?_, hy.frees⟩
  · refine hy.chains.frame fun k i hi => update_of_ne ?_ _ _
    rintro rfl
    exact ((hx.chains.mem_split hL').mp hi).2 (by simp)
  · refine hy.batch.update_off fun htail => ?_
    exact (List.nodup_append.mp (List.nodup_append.mp hnd).1).2.2 _ htail _ (by simp) rfl
  · intro u hu
    have hu : u ∈ update y.next tail v tail := hu
    rw [update_self] at hu
    exact hv u hu
  · exact hy.apart.congr rfl rfl rfl fun i hi =>
      update_of_ne (fun heq : i = tail => hi (heq ▸ htail)) _ _

variable {v : Version}

omit [DecidableEq T] in
/-- The compare-exchange puts the batch on the global stack. -/
theorem Loose.handed (hx : x.Stacks t L) (hL : L none = pre ++ tail :: rest)
    (hh : (L none).head? = some h) (hy : y.Loose t L pre tail rest fr) (hcut : y.Cut t rest)
    {old new : Word T (Option (Index B))} (hlog : y.log t = some (.unsizedToGlobal h v))
    (hold : y.global = old) (hlink : y.next tail = old.inner) (hnew : new.inner = some h) :
    (y.advance t { y.toMem with toHeap := y.setWord .global new } (.casWord .global old new)
      none).Handed t L pre tail rest fr := by
  have hL' : L none = (pre ++ [tail]) ++ rest := by simp [hL]
  obtain ⟨⟨g, hg, hmem⟩, hdis, hbelow⟩ := hy.apart
  have hchain : Seg y.next (some h) (pre ++ tail :: g) none := by
    refine seg_append.mpr ⟨some tail, hh ▸ hy.batch, rfl, ?_⟩
    rw [hlink, ← hold]
    exact hg
  have hbatch : ∀ i ∈ pre ++ [tail], i ∈ y.mine :=
    fun i hi => hy.lists none i (hL' ▸ List.mem_append_left rest hi)
  -- The slabs released are those of the new global stack.
  have hmine : ∀ i, i ∈ y.mine \ released y.toMem (y.log t) ∪ acquired y.toMem (y.log t) ↔
      i ∈ y.mine ∧ i ∉ pre ++ [tail] := by
    intro i
    have hreleased : i ∈ released y.toMem (y.log t) ↔ i ∈ pre ++ tail :: g := by
      rw [hlog]
      exact hchain.mem_iff.symm
    have hacquired : i ∉ acquired y.toMem (y.log t) := by
      rw [hlog]
      exact id
    rw [Set.mem_union, Set.mem_sdiff, hreleased]
    have hig : i ∈ g → i ∉ y.mine := fun hi => ((hmem i).mp hi).1
    simp only [List.mem_append, List.mem_cons, List.not_mem_nil, or_false]
    tauto
  have hst : (y.advance t { y.toMem with toHeap := y.setWord .global new }
      (.casWord .global old new) none).Stacks t (update L none rest) := by
    refine ⟨?_, fun k i hi => (hmine i).mpr ?_, fun k i hi => ?_⟩
    · have hheads : update (fun k => y.head (.of t k)) none rest.head? =
          fun k => y.head (.of t k) := by
        rw [← hcut.head]
        exact update_eq_self none _
      have hchains := hy.chains
      rw [hheads] at hchains
      exact hchains
    · obtain ⟨hi, hout⟩ := (hx.chains.mem_split hL').mp hi
      exact ⟨hy.lists k i hi, hout⟩
    · exact hx.below k i ((hx.chains.mem_split hL').mp hi).1
  refine ⟨hst, hcut.len, fun i hi hz => ((hmine i).mp hz).2 hi,
    ⟨⟨pre ++ tail :: g, ?_, fun i => ?_⟩, fun i hi htheirs => ?_, fun i hi => ?_⟩, hy.frees⟩
  · show Seg y.next new.inner _ none
    rw [hnew]
    exact hchain
  · have hi : i ∈ pre ++ tail :: g ↔ i ∈ pre ++ [tail] ∨ i ∈ g := by simp [or_assoc]
    have htheirs : i ∈ y.theirs \ acquired y.toMem (y.log t) ↔ i ∈ y.theirs := by
      rw [hlog]
      exact ⟨fun h => h.1, fun h => ⟨h, id⟩⟩
    have hmine := hmine i
    have hbatch := hbatch i
    have hdis := hdis i
    have hmem := hmem i
    show i ∈ _ ↔ i ∉ y.mine \ released y.toMem (y.log t) ∪ acquired y.toMem (y.log t) ∧
      i ∉ y.theirs \ acquired y.toMem (y.log t)
    tauto
  · exact hdis i ((hmine i).mp hi).1 htheirs.1
  · refine hbelow i fun htheirs => hi ⟨htheirs, ?_⟩
    show i ∉ acquired y.toMem (y.log t)
    rw [hlog]
    exact id

/-- The loop of the push. -/
theorem runs_pushLoop {α : Type} {Q : α → Tracked T B → Prop} {n : ℕ}
    {w : Word T (Option (Index B))} {f : Option (Option (Index B)) → HeapCode T B α}
    (hx : x.Stacks t L) (hL : L none = pre ++ tail :: rest) (hh : (L none).head? = some h)
    (hk : ∀ a z, z.Handed t L pre tail rest x.frees →
      z.log t = some (.unsizedToGlobal h v) → z.cas = some true →
      Runs t (f (some a)) Q (PushStopped t L pre tail rest h x) (· = .diverge) z)
    (hw : ∀ u ∈ w.inner, u ∉ y.mine) (hy : y.Loose t L pre tail rest x.frees)
    (hcut : y.Cut t rest) (hlog : y.Logged t h) (hcas : y.cas = some false) :
    Runs t (Detectable.updateLoop t .global v (fun old version => do
        lift (.storeNext tail old)
        pure (some (some h, .unsizedToGlobal h version))) n w >>= f)
      Q (PushStopped t L pre tail rest h x) (· = .diverge) y := by
  have hC : Stable (Leaves t) (PushStopped t L pre tail rest h x) := pushStopped_stable hL
  have hstop : ∀ z : Tracked T B, z.Loose t L pre tail rest x.frees → z.Logged t h →
      z.cas = some false → PushStopped t L pre tail rest h x z :=
    fun z hz hlog hcas => .inr (.inl ⟨hlog, hcas, hz⟩)
  induction n generalizing w y with
  | zero => exact runs_panic hC (hstop y hy hlog hcas) rfl
  | succ n ih =>
    simp only [Detectable.updateLoop, bind_assoc]
    refine runs_help hC (hstop y hy hlog hcas) fun help => ?_
    have hhelp : { y with help := help }.Loose t L pre tail rest x.frees :=
      ⟨hy.chains, hy.batch, hy.link, hy.lists, hy.apart, hy.frees⟩
    refine runs_storeNext hC (hstop _ hhelp hlog hcas) (hy.lists none tail (by simp [hL])) ?_
    have hlinked := hhelp.relink hx hL hw y.log y.cas
    rw [pure_bind]
    refine runs_log hC (hstop _ hlinked hlog hcas) ?_
    have hlogged := hhelp.relink hx hL hw (update y.log t (some (.unsizedToGlobal h v)))
      (some false)
    have hlog' : update y.log t (some (.unsizedToGlobal h v)) t = some (.unsizedToGlobal h v) :=
      update_self ..
    refine runs_casWord hC (hstop _ hlogged (.inr ⟨v, hlog'⟩) rfl) (fun z hz hword => ?_)
      fun z hz => ?_
    · have hzlog := hz.log.trans hlog'
      have hzcut : z.Cut t rest :=
        ⟨(hz.head _ rfl).trans hcut.head, (hz.len _ rfl).trans hcut.len⟩
      refine hk _ _ ((hlogged.leaves hL hz).handed hx hL hh hzcut hzlog hword ?_ rfl)
        hzlog rfl
      exact (hz.next tail (hy.lists none tail (by simp [hL]))).trans (update_self ..)
    · refine ih ?_ hlogged ⟨hcut.head, hcut.len⟩ (.inr ⟨v, hlog'⟩) rfl
      intro u hu
      have hmine : z.mine = y.mine := hz.mine
      exact hmine ▸ ((hz.apart hlogged.apart).top hu).1

variable {cfg : Config}

/-- A short stack stays as it is. -/
theorem runs_unsizedToGlobal_short {C : Tracked T B → Prop} {E : Panic → Prop}
    (hC : Stable (Leaves t) C) (hc : C x) (hlen : x.len (.unsized t) ≤ cfg.cacheLocal) :
    Runs t (Heap.unsizedToGlobal cfg t) (fun _ w => Leaves t x w) C E x := by
  unfold Heap.unsizedToGlobal
  refine runs_loadLen hC hc rfl ?_
  rw [if_pos hlen]
  exact runs_pure (fun _ _ hyz hxy => hxy.trans hyz) hC hc (Leaves.refl t x)

omit [DecidableEq B] [Bracket B] in
/-- A stack that is too long starts with a whole batch. -/
theorem exists_batch (hpos : 1 ≤ cfg.batchGlobal)
    (hle : cfg.batchGlobal ≤ cfg.cacheLocal + 1) (hlen : cfg.cacheLocal < xs.length) :
    ∃ pre tail rest, xs = pre ++ tail :: rest ∧ pre.length + 1 = cfg.batchGlobal := by
  have hlt : cfg.batchGlobal - 1 < xs.length := by omega
  refine ⟨xs.take (cfg.batchGlobal - 1), xs[cfg.batchGlobal - 1], xs.drop cfg.batchGlobal, ?_, ?_⟩
  · have hdrop := List.drop_eq_getElem_cons hlt
    rw [Nat.sub_add_cancel hpos] at hdrop
    rw [← hdrop, List.take_append_drop]
  · rw [List.length_take]
    omega

/-- `unsized_to_global` of a batch, wherever it is stopped and to its end. -/
theorem runs_unsizedToGlobal (hx : x.Stacks t L) (hcount : x.len (.unsized t) = (L none).length)
    (hap : x.Apart) (howner : cfg.validate = true → ∀ i ∈ L none, x.owner i = some t)
    (hlen : cfg.cacheLocal < (L none).length) (hL : L none = pre ++ tail :: rest)
    (hpre : pre.length + 1 = cfg.batchGlobal) (hh : (L none).head? = some h) :
    Runs t (Heap.unsizedToGlobal cfg t) (fun _ w => w.Handed t L pre tail rest x.frees)
      (PushStopped t L pre tail rest h x) (· = .diverge) x := by
  have hC : Stable (Leaves t) (PushStopped t L pre tail rest h x) := pushStopped_stable hL
  have hL' : L none = (pre ++ [tail]) ++ rest := by simp [hL]
  have hentry : ∀ owner last, PushStopped t L pre tail rest h x
      { x with owner := owner, lastOwner := last } :=
    fun owner last => .inl ⟨rfl, rfl, ⟨hx.chains, hx.mine, hx.below⟩, hcount, hap⟩
  have hhead : x.head (.unsized t) = (L none).head? := hx.chains.head_eq none
  unfold Heap.unsizedToGlobal
  refine runs_loadLen hC (hentry _ _) rfl ?_
  rw [hcount, if_neg (not_le.mpr hlen)]
  refine runs_record hC (hentry _ _) ?_
  unfold Stack.peek
  refine runs_loadHead hC (hentry _ _) rfl ?_
  refine runs_takeBatch hC (hx.chains.seg none) (hx.mine none) howner
    (fun owner last _ _ => hentry owner last) fun owner last _ _ => ?_
  have htake : (L none).take cfg.batchGlobal = pre ++ [tail] := by
    rw [hL', ← hpre]
    exact List.take_left' (by simp)
  have hfirst : (pre ++ [tail]).head? = some h := by
    rw [← hh, hL']
    cases pre <;> rfl
  have hlast : (pre ++ [tail]).tail.getLast?.getD h = tail := by
    cases pre with
    | nil => exact (Option.some.inj hfirst).symm
    | cons p pre => simp
  rw [htake, hfirst]
  simp only [unwrap, pure_bind]
  rw [hlast]
  have hnext : x.next tail = rest.head? := (hL ▸ hx.chains.seg none).next_eq
  refine runs_loadNext hC (hentry _ _) (hx.mine none tail (by simp [hL])) ?_
  dsimp only
  rw [hnext]
  refine runs_log hC (hentry _ _) ?_
  have hsub : (checkedSub (L none).length cfg.batchGlobal : HeapCode T B ℕ) =
      pure rest.length := by
    have hlength : (L none).length = cfg.batchGlobal + rest.length := by
      rw [hL', List.length_append, List.length_append, List.length_singleton, hpre]
    rw [checkedSub, if_pos (by omega), hlength, Nat.add_sub_cancel_left]
  rw [hsub, pure_bind]
  have hlog : update x.log t (some (.unsizedToGlobalSave h)) t = some (.unsizedToGlobalSave h) :=
    update_self ..
  have hsplit := hx.chains.split hL'
  have hbatch : Seg x.next (L none).head? pre (some tail) := by
    have hseg := hx.chains.seg none
    rw [hL] at hseg
    obtain ⟨m, hpre, rfl, -⟩ := seg_append.mp hseg
    rw [← hhead]
    exact hpre
  -- From the record on the batch is loose, wherever the unsized stack starts.
  have hloose : ∀ head len, (∀ k, update (fun k => head (.of t k)) none rest.head? k =
      update (fun k => x.head (.of t k)) none rest.head? k) →
      Loose t L pre tail rest x.frees { x with
        owner := owner, lastOwner := last, cas := some false, head := head, len := len
        log := update x.log t (some (.unsizedToGlobalSave h)) } := by
    intro head len hhead
    refine ⟨?_, hbatch, .inl hnext, hx.mine, hap, rfl⟩
    rw [funext hhead]
    exact hsplit
  have hstop : ∀ z : Tracked T B, z.Loose t L pre tail rest x.frees → z.Logged t h →
      z.cas = some false → PushStopped t L pre tail rest h x z :=
    fun z hz hlog hcas => .inr (.inl ⟨hlog, hcas, hz⟩)
  have hset : ∀ k, update (fun k => update x.head (.unsized t) rest.head? (.of t k)) none
      rest.head? k = update (fun k => x.head (.of t k)) none rest.head? k := by
    intro k
    show update (fun k => update x.head (.of t none) rest.head? (.of t k)) none rest.head? k = _
    rw [heads_update, update_idem]
  refine runs_set hC (hstop _ (hloose _ _ fun _ => rfl) (.inl hlog) rfl)
    (hstop _ (hloose _ _ hset) (.inl hlog) rfl) ?_
  have hcutoff := hloose _ (update x.len (.unsized t) rest.length) hset
  have hc := hstop _ hcutoff (.inl hlog) rfl
  have hwhole : Seg x.next (some h) (L none) none := by
    rw [← hh, ← hhead]
    exact hx.chains.seg none
  refine runs_flushBatch hC hwhole (hx.mine none) hc ?_
  unfold Global.push Detectable.update
  simp only [bind_assoc]
  refine runs_loadVersion hC hc (runs_storeHelp hC hc fun help => ?_)
  have hhelped : Loose t L pre tail rest x.frees { x with
        owner := owner, lastOwner := last, cas := some false, help := help
        head := update x.head (.unsized t) rest.head?
        len := update x.len (.unsized t) rest.length
        log := update x.log t (some (.unsizedToGlobalSave h)) } :=
    ⟨hcutoff.chains, hcutoff.batch, hcutoff.link, hcutoff.lists, hcutoff.apart,
      hcutoff.frees⟩
  refine runs_loadWord hC (hstop _ hhelped (.inl hlog) rfl) fun z hz => ?_
  refine runs_pushLoop hx hL hh (fun a w hw hlog hcas => ?_) (fun u hu => ?_) hhelped
    ⟨update_self .., update_self ..⟩ (.inl hlog) rfl
  · exact runs_pure (fun _ _ hyz hy => hy.leaves hyz) hC
      (.inr (.inr ⟨⟨_, hlog⟩, hcas, hw⟩)) hw
  · have hmine : z.mine = x.mine := hz.mine
    exact hmine ▸ ((hz.apart hap).top hu).1

/-! ### Recovery -/

/-- Every slab of the old unsized stack is on the unsized stack, or else on the global one
or with another thread, who took it from there; the unsized stack is counted. -/
def PushRecovered (t : T) (L : Option B → List (Index B)) (w : Tracked T B) : Prop :=
  ∃ ys g, w.Stacks t (update L none ys) ∧ w.len (.unsized t) = ys.length ∧
    Seg w.next w.global.inner g none ∧ (∀ i ∈ g, i ∉ ys) ∧
    ∀ i ∈ L none, (i ∈ ys ∧ i ∉ g ∧ i ∉ w.theirs) ∨ (i ∉ ys ∧ (i ∈ g ∨ i ∈ w.theirs))

/-- The record is of this transition, and it took effect or left the links as they were;
or the record is that of the remote free that led to it. -/
def Mendable (t : T) (xs : List (Index B)) (m : Mem T B (HeapState B)) (z : Tracked T B) : Prop :=
  match z.log t with
  | some (.unsizedToGlobalSave _) => ∀ i ∈ xs, z.next i = m.next i
  | some (.unsizedToGlobal _ _) => z.cas = some true ∨ ∀ i ∈ xs, z.next i = m.next i
  | some (.remote _ _ _) => True
  | _ => False

/-- The same in terms of whose slabs are whose, which the other threads keep. -/
structure Regained (t : T) (L : Option B → List (Index B)) (ys : List (Index B))
    (w : Tracked T B) : Prop where
  chains : w.Stacks t (update L none ys)
  len : w.len (.unsized t) = ys.length
  apart : w.Apart
  kept : ∀ i ∈ L none, i ∈ ys ∨ i ∉ w.mine

omit [DecidableEq T] in
theorem Regained.leaves {ys : List (Index B)} (hy : y.Regained t L ys) (hyz : Leaves t y z) :
    z.Regained t L ys where
  chains := hy.chains.leaves hyz
  len := (hyz.len _ rfl).trans hy.len
  apart := hyz.apart hy.apart
  kept := hyz.mine ▸ hy.kept

omit [DecidableEq T] in
theorem Regained.recovered {ys : List (Index B)} (hz : z.Regained t L ys) :
    PushRecovered t L z := by
  obtain ⟨⟨g, hg, hgmem⟩, hdis, -⟩ := hz.apart
  have hys : ∀ i ∈ ys, i ∈ z.mine :=
    fun i hi => hz.chains.mine none i (by rw [update_self]; exact hi)
  refine ⟨ys, g, hz.chains, hz.len, hg, fun i hi hy => ((hgmem i).mp hi).1 (hys i hy),
    fun i hi => ?_⟩
  by_cases hy : i ∈ ys
  · exact .inl ⟨hy, fun hg => ((hgmem i).mp hg).1 (hys i hy), hdis i (hys i hy)⟩
  · refine .inr ⟨hy, or_iff_not_imp_right.mpr fun htheirs => (hgmem i).mpr ⟨?_, htheirs⟩⟩
    exact (hz.kept i hi).resolve_left hy

omit [DecidableEq T] in
theorem Handed.regained (hL : L none = pre ++ tail :: rest)
    (hz : z.Handed t L pre tail rest fr) : z.Regained t L rest := by
  refine ⟨hz.chains, hz.len, hz.apart, fun i hi => ?_⟩
  rw [hL, ← List.singleton_append, ← List.append_assoc, List.mem_append] at hi
  rcases hi with hi | hi
  · exact .inr (hz.gone i hi)
  · exact .inl hi

omit [DecidableEq T] in
theorem Stacks.regained (hst : z.Stacks t L) (hlen : z.len (.unsized t) = (L none).length)
    (hap : z.Apart) : z.Regained t L (L none) := by
  have hL : update L none (L none) = L := update_eq_self ..
  exact ⟨hL.symm ▸ hst, hlen, hap, fun i hi => .inl hi⟩

/-- The unsized stack as it was, counted again. -/
theorem runs_undo (hst : z.Stacks t L) (hap : z.Apart) :
    Runs t (Stack.recoverLen (.unsized t)) (fun _ w => w.Regained t L (L none)) (fun _ => True)
      (fun _ => False) z := by
  have hC : Stable (Leaves t) fun _ : Tracked T B => True := fun _ _ _ _ => trivial
  rw [← bind_pure (Stack.recoverLen _)]
  refine runs_recoverLen hC rfl (hst.chains.seg none) (hst.mine none) (hst.length_lt none) trivial
    (runs_pure (fun _ _ hyz hy => hy.leaves hyz) hC trivial ?_)
  exact Stacks.regained ⟨hst.chains, hst.mine, hst.below⟩ (update_self ..) hap

/-- The whole of `unsized_to_global`, of a short stack or a long one. -/
theorem runs_shed (hx : x.Stacks t L) (hcount : x.len (.unsized t) = (L none).length)
    (hap : x.Apart) (howner : cfg.validate = true → ∀ i ∈ L none, x.owner i = some t)
    (hpos : 1 ≤ cfg.batchGlobal) (hle : cfg.batchGlobal ≤ cfg.cacheLocal + 1) :
    Runs t (Heap.unsizedToGlobal cfg t)
      (fun _ w => ((L none).length ≤ cfg.cacheLocal ∧ Leaves t x w) ∨
        (cfg.cacheLocal < (L none).length ∧ ∃ pre tail rest, L none = pre ++ tail :: rest ∧
          pre.length + 1 = cfg.batchGlobal ∧ w.Handed t L pre tail rest x.frees))
      (fun _ => True) (· = .diverge) x := by
  have hC : Stable (Leaves t) fun _ : Tracked T B => True := fun _ _ _ _ => trivial
  by_cases hlen : (L none).length ≤ cfg.cacheLocal
  · refine wpc_mono (runs_unsizedToGlobal_short hC trivial ?_) (fun _ _ h => h)
      (fun _ w hw => .inl ⟨hlen, hw⟩) (fun _ h => h) (fun _ h => h)
    rw [hcount]
    exact hlen
  · rw [not_le] at hlen
    obtain ⟨pre, tail, rest, hL, hpre⟩ := exists_batch hpos hle hlen
    have hh : (L none).head? = some (pre.head?.getD tail) := by
      rw [hL]
      cases pre <;> rfl
    exact wpc_mono (runs_unsizedToGlobal hx hcount hap howner hlen hL hpre hh) (fun _ _ h => h)
      (fun _ w hw => .inr ⟨hlen, pre, tail, rest, hL, hpre, hw⟩) (fun _ _ => trivial)
      (fun _ h => h)

/-- Where `unsized_to_global` may be stopped, of a short stack or a long one. -/
theorem push_stops (hx : x.Stacks t L) (hcount : x.len (.unsized t) = (L none).length)
    (hap : x.Apart) (howner : cfg.validate = true → ∀ i ∈ L none, x.owner i = some t)
    (hpos : 1 ≤ cfg.batchGlobal) (hle : cfg.batchGlobal ≤ cfg.cacheLocal + 1)
    (hstop : Stops (handle t) (Leaves t) (Heap.unsizedToGlobal cfg t) x z) :
    Untouched t L x z ∨
    ∃ pre tail rest h, L none = pre ++ tail :: rest ∧ (L none).head? = some h ∧
      ((z.Logged t h ∧ z.cas = some false ∧ z.Loose t L pre tail rest x.frees) ∨
      ((∃ v, z.log t = some (.unsizedToGlobal h v)) ∧ z.cas = some true ∧
        z.Handed t L pre tail rest x.frees)) := by
  by_cases hlen : (L none).length ≤ cfg.cacheLocal
  · have hC : Stable (Leaves t) (Untouched t L x) := fun _ _ hyz hy => hy.leaves hyz
    refine .inl (wpc_stops (E := fun _ => True) (runs_unsizedToGlobal_short hC
      ⟨rfl, rfl, hx, hcount, hap⟩ ?_) hstop)
    rw [hcount]
    exact hlen
  · rw [not_le] at hlen
    obtain ⟨pre, tail, rest, hL, hpre⟩ := exists_batch hpos hle hlen
    have hh : (L none).head? = some (pre.head?.getD tail) := by
      rw [hL]
      cases pre <;> rfl
    rcases wpc_stops (runs_unsizedToGlobal hx hcount hap howner hlen hL hpre hh) hstop with hz | hz
    · exact .inl hz
    · exact .inr ⟨pre, tail, rest, _, hL, hh, hz⟩

/-- The first slab of the batch is put back on the unsized stack. -/
theorem runs_reset (hx : x.Stacks t L) (hh : (L none).head? = some h)
    (hz : z.Loose t L pre tail rest fr)
    (hwhole : Chains z.next (update (fun k => z.head (.of t k)) none (L none).head?) L) :
    Runs t (do
        Stack.set (.unsized t) (some h) 0
        Stack.recoverLen (.unsized t))
      (fun _ w => w.Regained t L (L none)) (fun _ => True) (fun _ => False) z := by
  have hC : Stable (Leaves t) fun _ : Tracked T B => True := fun _ _ _ _ => trivial
  refine runs_set hC trivial trivial (runs_undo ⟨?_, hz.lists, hx.below⟩ hz.apart)
  rw [hh, ← heads_update] at hwhole
  exact hwhole

omit [DecidableEq T] in
/-- If the stack that hangs off the batch is the thread's, and nothing of the old one is
lost, then the batch leads to the rest of it. -/
theorem Loose.linked (hx : x.Stacks t L) (hL : L none = pre ++ tail :: rest)
    (hh : (L none).head? = some h) (hz : z.Loose t L pre tail rest fr) {w : Tracked T B}
    (hsame : Same z w) (hhead : w.head (.unsized t) = some h) (hw : PushRecovered t L w) :
    z.next tail = rest.head? := by
  obtain ⟨ys, g, hst, -, hg, -, hkept⟩ := hw
  obtain ⟨⟨g', hg', hmem⟩, hdis, -⟩ := hz.apart
  rw [hsame.next, hsame.global] at hg
  obtain rfl := hg.unique hg'
  have hys : ∀ i ∈ ys, i ∈ z.mine := fun i hi =>
    hsame.mine ▸ hst.mine none i (by rw [update_self]; exact hi)
  have hseg : Seg z.next (L none).head? ys none := by
    have hseg := hst.chains.seg none
    rw [update_self, hsame.next] at hseg
    rw [hh, ← hhead]
    exact hseg
  obtain ⟨zs, rfl, hzs⟩ := hz.batch.split hseg
  rcases hz.link with hlink | hlink
  · exact hlink
  · -- The chain leaves the thread's slabs at once, so it ends there.
    have hnone : z.next tail = none := by
      cases hv : z.next tail with
      | none => rfl
      | some v =>
        have hmem : v ∈ zs := List.mem_of_mem_head? (hzs.head_eq.symm.trans hv)
        exact absurd (hys v (by simp [hmem])) (hlink v hv)
    have hnil : zs = [] := by
      have := hzs.head_eq
      rw [hnone] at this
      exact List.head?_eq_none_iff.mp this.symm
    rw [hnone]
    cases rest with
    | nil => rfl
    | cons r rest =>
      have hr : r ∈ L none := by simp [hL]
      have hmine : r ∈ z.mine := hz.lists none r hr
      have hnd := hx.chains.nodup none
      rw [hL] at hnd
      rcases hkept r hr with ⟨hin, -⟩ | ⟨-, hin | hin⟩
      · rw [hnil] at hin
        exact absurd hin (by grind)
      · exact absurd hmine ((hmem r).mp hin).1
      · exact absurd (hsame.theirs ▸ hin) (hdis r hmine)

theorem wp_recoverLen {s : StackId T B} : wp (handle t) (Stack.recoverLen s)
    (fun _ w => Same z w ∧ w.head = z.head) (fun _ => True) z :=
  wp_of_recounts (.bind (.lift trivial) fun _ => .bind recounts_count fun _ => .lift trivial)

variable [Fintype T]

/-- Recovery of a push that did not take effect puts the batch back, whatever it leads to. -/
theorem wp_recover_loose (e : Others T B t) (hlog : z.Logged t h) (hcas : z.cas = some false)
    (hdetect : ∀ r ∈ z.log t, e.Exact z r) :
    wp (handle t) (Heap.recover cfg t) (fun _ w => Same z w ∧ w.head (.unsized t) = some h)
      (fun _ => True) z := by
  have hreset : wp (handle t) (do
      Stack.set (.unsized t) (some h) 0
      Stack.recoverLen (.unsized t))
      (fun _ w => Same z w ∧ w.head (.unsized t) = some h) (fun _ => True) z := by
    show wp (handle t) (Stack.recoverLen (.unsized t)) _ _ { z with
      head := update z.head (.unsized t) (some h), len := update z.len (.unsized t) 0 }
    refine wp_mono wp_recoverLen (fun _ w hw => ?_) fun _ h => h
    exact ⟨⟨hw.1.next, hw.1.mine, hw.1.theirs, hw.1.global⟩,
      (congrFun hw.2 _).trans (update_self ..)⟩
  rw [wp_recover_log]
  rcases hlog with hlog | ⟨v, hlog⟩
  · rw [hlog]
    unfold Heap.recoverHeap Stack.peek
    rw [wp_bind, wp_lift]
    show wp (handle t) (if z.head (.unsized t) = some h then _ else _) _ _ z
    split
    · rename_i hhead
      exact wp_mono wp_recoverLen (fun _ w hw => ⟨hw.1, (congrFun hw.2 _).trans hhead⟩)
        fun _ h => h
    · exact hreset
  · have hd : e.Detects .global v z := hdetect _ hlog
    rw [hlog]
    unfold Heap.recoverHeap
    rw [wp_bind]
    refine wp_mono (wp_detect e hd) ?_ fun _ h => h.elim
    rintro took y ⟨htook, rfl⟩
    obtain rfl : false = took := Option.some.inj (hcas.symm.trans htook)
    exact hreset

/-- A push that did not take effect is undone if and only if the batch leads to the rest. -/
theorem recovers_loose_iff (e : Others T B t) (hx : x.Stacks t L)
    (hL : L none = pre ++ tail :: rest) (hh : (L none).head? = some h)
    (hlog : z.Logged t h) (hcas : z.cas = some false) (hz : z.Loose t L pre tail rest fr)
    (hdetect : ∀ r ∈ z.log t, e.Exact z r) :
    wpc (handle t) e.acts (Heap.recover cfg t) (fun _ w => PushRecovered t L w) (fun _ => True)
      (fun _ => False) z ↔ z.next tail = rest.head? := by
  constructor
  · intro hrecovers
    obtain ⟨_, w, hrun, hw⟩ := wp_returns (wpc_wp e.refl hrecovers)
    obtain ⟨hsame, hhead⟩ := wp_ok (wp_recover_loose e hlog hcas hdetect) hrun
    exact hz.linked hx hL hh hsame hhead hw
  · intro hlink
    have hwhole := hz.whole hL hx.chains.disjoint hlink
    have hreset := runs_reset hx hh hz hwhole
    have hC : Stable (Leaves t) fun _ : Tracked T B => True := fun _ _ _ _ => trivial
    rcases hlog with hlog | ⟨v, hlog⟩
    · refine runs_recover e (fun _ _ => trivial) hlog (wpc_mono (R := Leaves t) (E := fun _ => False)
        (Q := fun _ w => w.Regained t L (L none)) (C := fun _ => True) ?_ e.leaves
        (fun _ _ hw => hw.recovered) (fun _ h => h) (fun _ h => h))
      unfold Heap.recoverHeap Stack.peek
      refine runs_loadHead hC trivial rfl ?_
      split
      · rename_i hhead
        refine runs_undo ⟨?_, hz.lists, hx.below⟩ hz.apart
        rw [hh, ← hhead] at hwhole
        have hheads := update_eq_self none fun k : Option B => z.head (.of t k)
        exact hheads ▸ hwhole
      · exact hreset
    · have hd : e.Detects .global v z := hdetect _ hlog
      refine wpc_recover_detect e hlog hd rfl fun took y htook hy => ?_
      obtain rfl : false = took := Option.some.inj (hcas.symm.trans htook)
      exact wpc_mono (runs_stable z y (e.leaves z y hy) hreset) (fun _ _ h => h)
        (fun _ _ hw => hw.recovered) (fun _ h => h) (fun _ h => h)

/-- A push that took effect needs no recovery. -/
theorem recovers_handed (e : Others T B t) (hL : L none = pre ++ tail :: rest)
    (hlog : z.log t = some (.unsizedToGlobal h v)) (hcas : z.cas = some true)
    (hz : z.Handed t L pre tail rest fr) (hdetect : ∀ r ∈ z.log t, e.Exact z r) :
    wpc (handle t) e.acts (Heap.recover cfg t) (fun _ w => PushRecovered t L w) (fun _ => True)
      (fun _ => False) z := by
  have hd : e.Detects .global v z := hdetect _ hlog
  refine wpc_recover_detect e hlog hd rfl fun took y htook hy => ?_
  obtain rfl : true = took := Option.some.inj (hcas.symm.trans htook)
  exact fun w hw => ⟨trivial, (((hz.regained hL).leaves (e.leaves z y hy)).leaves hw).recovered⟩

/-- After a remote free the transition is run again. -/
theorem recovers_remote (e : Others T B t) (hpos : 1 ≤ cfg.batchGlobal)
    (hle : cfg.batchGlobal ≤ cfg.cacheLocal + 1) (hvalidate : cfg.validate = false)
    (hlog : z.log t = some (.remote i v true)) (hcas : z.cas = some true) (hz : z.Stacks t L)
    (hap : z.Apart) (hhead : z.head (.unsized t) = some i) (hdetect : ∀ r ∈ z.log t, e.Exact z r) :
    wpc (handle t) e.acts (Heap.recover cfg t) (fun _ w => PushRecovered t L w) (fun _ => True)
      (· = .diverge) z := by
  have hd : e.Detects (.remote i) v z := hdetect _ hlog
  refine wpc_recover_detect e hlog hd rfl fun took y htook hy => ?_
  obtain rfl : true = took := Option.some.inj (hcas.symm.trans htook)
  refine runs_stable z y (e.leaves z y hy) ?_
  have hi : i ∈ L none := List.mem_of_mem_head? ((hz.chains.head_eq none).symm.trans hhead)
  refine runs_recoverPush (hz.mine none i hi) (fun _ => hz) (fun hne => absurd hhead hne)
    fun next head hnext hy => ?_
  have hap' : Apart { z with
      next := next, head := head, len := update z.len (.unsized t) (L none).length } :=
    hap.congr rfl rfl rfl fun j hj =>
      hnext j fun heq => hj (heq ▸ hz.mine none i hi)
  refine wpc_mono (runs_shed hy (update_self ..) hap' (fun h => absurd (hvalidate.symm.trans h) (by simp))
    hpos hle) (fun _ _ h => h) ?_ (fun _ h => h) (fun _ h => h)
  rintro - w (⟨-, hw⟩ | ⟨-, pre, tail, rest, hL, -, hw⟩)
  · exact ((hy.regained (update_self ..) hap').leaves hw).recovered
  · exact (hw.regained hL).recovered

/-- **A crash while a batch goes to the global stack is recovered exactly if the batch got
there or still leads to the rest of the unsized stack.**  Before the first record of the
transition, that holds for a remote free and not for a local one. -/
theorem unsizedToGlobal_recovers_iff (e : Others T B t) {m : Mem T B (HeapState B)}
    {a : Ledger T B} (inv : Inv cfg m.toHeap a)
    (hcount : m.len (.unsized t) = (a.chain (some (.unsized t))).length)
    (hvalidate : cfg.validate = false) (hpos : 1 ≤ cfg.batchGlobal)
    (hle : cfg.batchGlobal ≤ cfg.cacheLocal + 1)
    (hentry : (∃ i b, m.log t = some (.applicationToSized i b)) ∨
      ∃ i v, m.log t = some (.remote i v true) ∧ m.head (.unsized t) = some i)
    (hstop : Stops (handle t) e.acts (Heap.unsizedToGlobal cfg t)
      { start t m none with cas := some true } z)
    (hdetect : ∀ r ∈ z.log t, e.Exact z r) :
    wpc (handle t) e.acts (Heap.recover cfg t)
      (fun _ w => PushRecovered t (fun k => a.chain (some (.of t k))) w) (fun _ => True)
      (fun p => p = .diverge ∧ ∃ i v, z.log t = some (.remote i v true)) z ↔
    z.Mendable t (a.chain (some (.unsized t))) m := by
  have hst : Stacks t { start t m none with cas := some true } fun k =>
      a.chain (some (.of t k)) := by
    have h : (start t m none).Stacks t fun k => a.chain (some (.of t k)) := stacks_start inv
    exact ⟨h.chains, h.mine, h.below⟩
  have hap : (start t m none).Apart := apart_start inv
  -- A run that diverges is one of a remote free.
  have hiff : (¬∃ i v, z.log t = some (.remote i v true)) →
      (wpc (handle t) e.acts (Heap.recover cfg t)
        (fun _ w => PushRecovered t (fun k => a.chain (some (.of t k))) w) (fun _ => True)
        (fun p => p = .diverge ∧ ∃ i v, z.log t = some (.remote i v true)) z ↔
      wpc (handle t) e.acts (Heap.recover cfg t)
        (fun _ w => PushRecovered t (fun k => a.chain (some (.of t k))) w) (fun _ => True)
        (fun _ => False) z) :=
    fun hno => ⟨fun h => wpc_mono h (fun _ _ h => h) (fun _ _ h => h) (fun _ h => h)
      fun _ h => hno h.2, fun h => wpc_mono h (fun _ _ h => h) (fun _ _ h => h) (fun _ h => h)
      fun _ h => h.elim⟩
  rcases push_stops hst hcount hap (fun h => absurd (hvalidate.symm.trans h) (by simp)) hpos hle
    (hstop.mono e.leaves) with hz | ⟨pre, tail, rest, h, hL, hh, hz⟩
  · have hzlog : z.log t = m.log t := hz.log
    rcases hentry with ⟨i, b, hentry⟩ | ⟨i, v, hentry, hhead⟩
    · have hlog := hzlog.trans hentry
      refine iff_of_false (fun hrecovers => ?_) (by simp [Mendable, hlog])
      have hpanic : (Heap.recover cfg t).exec (handle t) z = .error .todo := by
        have hload : handle t _ (.loadLog t) z = .ok (z.log t, z) := rfl
        unfold Heap.recover
        show exec _ (.step _ _) z = _
        rw [exec, hload, hlog]
        rfl
      exact absurd (wp_error (wpc_wp e.refl hrecovers) hpanic).1 (by simp)
    · have hlog := hzlog.trans hentry
      have hzhead : z.head (.unsized t) = some i :=
        ((hz.chains.chains.head_eq none).trans (hst.chains.head_eq none).symm).trans hhead
      refine iff_of_true ?_ (by simp [Mendable, hlog])
      exact wpc_mono (recovers_remote e hpos hle hvalidate hlog hz.cas hz.chains hz.apart
        hzhead hdetect) (fun _ _ h => h) (fun _ _ h => h) (fun _ h => h)
        fun _ h => ⟨h, i, v, hlog⟩
  · rcases hz with ⟨hlog, hcas, hz⟩ | ⟨⟨v, hlog⟩, hcas, hz⟩
    · have hno : ¬∃ i v, z.log t = some (.remote i v true) := by
        rintro ⟨i, v, hno⟩
        rcases hlog with hlog | ⟨w, hlog⟩
        · cases hlog.symm.trans hno
        · cases hlog.symm.trans hno
      rw [hiff hno, recovers_loose_iff e hst hL hh hlog hcas hz hdetect, hz.linked_iff hst hL]
      rcases hlog with hlog | ⟨v, hlog⟩
      · rw [Mendable, hlog]
        rfl
      · rw [Mendable, hlog, hcas]
        simp only [Option.some.injEq, Bool.false_eq_true, false_or]
        rfl
    · have hno : ¬∃ i v, z.log t = some (.remote i v true) := by
        rintro ⟨i, v, hno⟩
        cases hlog.symm.trans hno
      rw [hiff hno]
      exact iff_of_true (recovers_handed e hL hlog hcas hz hdetect) (by simp [Mendable, hlog, hcas])


end

/-! ### A batch that leads to the rest, and one that does not -/

/-- Three slabs for a bump, and room for one of them. -/
def roomForOne : Config :=
  { Config.initial false with batchBump := 3, cacheLocal := 1 }

/-- Thread 0 of `s`, in the middle of a free, stops after `n` accesses of
`unsized_to_global`. -/
def pushing (s : Running (Fin 1) Large (HeapState Large)) (n : ℕ) : Tracked (Fin 1) Large :=
  stopAt (handle 0) n (Heap.unsizedToGlobal roomForOne 0)
    { start 0 { s.mem with log := fun _ => some (.applicationToSized .min ⟨0, 0⟩) } none with
      cas := some true }

/-- Slabs 2 and 3 are on the unsized stack.  Slab 2 is taken off it, and put back. -/
theorem unsizedToGlobal_recovers_popped :
    ∃ (s : Running (Fin 1) Large (HeapState Large)) (a : Ledger (Fin 1) Large),
    (pushing s 8).head (.unsized 0) = some (Index.min.succ.succ) ∧
    ∀ e : Others (Fin 1) Large 0,
      wpc (handle 0) e.acts (Heap.recover roomForOne 0)
        (fun _ w => PushRecovered 0 (fun k => a.chain (some (.of 0 k))) w) (fun _ => True)
        (fun p => p = .diverge ∧ ∃ i v, (pushing s 8).log 0 = some (.remote i v true))
        (pushing s 8) := by
  obtain ⟨s, hs, hhead, hlen, htop, hnext, hlast, hlog, hlinks⟩ :
      ∃ s : Running (Fin 1) Large (HeapState Large),
      Running.script Session.TidyCall roomForOne [.allocate 0 ⟨8⟩] .zeroed = some s ∧
      ((pushing s 8).head (.unsized 0) = some (Index.min.succ.succ) ∧
        s.heap.len (.unsized 0) = 2 ∧
        s.heap.head (.unsized 0) = some (Index.succ .min) ∧
        s.heap.next (Index.succ .min) = some (Index.min.succ.succ) ∧
        s.heap.next (Index.min.succ.succ) = none ∧
        (pushing s 8).log 0 = some (.unsizedToGlobalSave (Index.succ .min)) ∧
        ∀ i ∈ [Index.succ .min, Index.min.succ.succ],
          (pushing s 8).next i = s.heap.next i) :=
    Session.exists_of_any (by decide +kernel)
  obtain ⟨a, tr, -⟩ := Session.exact_run (by decide) (by decide) (by decide) (by decide)
    (Running.run_of_script hs)
  have hchain : a.chain (some (.unsized 0)) = [Index.succ .min, Index.min.succ.succ] :=
    (tr.inv.chains.seg (some (.unsized 0))).unique ⟨htop, hnext, hlast⟩
  refine ⟨s, a, hhead, fun e => ?_⟩
  refine (unsizedToGlobal_recovers_iff e
    (m := { s.mem with log := fun _ => some (.applicationToSized .min ⟨0, 0⟩) }) tr.inv
    (hlen.trans (by rw [hchain]; rfl)) rfl (by decide) (by decide) (.inl ⟨_, _, rfl⟩)
    (stops_stopAt e.refl 8 _ _) ?_).mpr ?_
  · intro r hr
    obtain rfl := Option.some.inj (hlog.symm.trans hr)
    exact trivial
  · show (pushing s 8).Mendable 0 _ _
    rw [Mendable, hlog, hchain]
    exact hlinks

/-- Thread 0 allocates a block, frees it, and allocates another one.  Slab 1 is on the
global stack then, and slab 3 on the unsized one. -/
def oneGlobal : List (Call (Fin 1) Large) :=
  [.allocate 0 ⟨8⟩, .free 0 (Offset.fromBlock ⟨8⟩ .min ⟨0, 0⟩), .allocate 0 ⟨8⟩]

/-- Thread 0 of `s` stops after `n` accesses of the free of its block in slab 2. -/
def returning (s : Running (Fin 1) Large (HeapState Large)) (n : ℕ) : Tracked (Fin 1) Large :=
  stopAt (handle 0) n
    (Heap.free roomForOne 0 (Offset.fromBlock ⟨8⟩ (Index.succ .min) ⟨0, 0⟩)) (start 0 s.mem none)

/-- The free calls `unsized_to_global` with slabs 2 and 3, and the thread stops once slab 2
leads to the global stack.  After recovery slab 1 is on both stacks, and slab 3 on none. -/
theorem unsizedToGlobal_on_both : ∃ s : Running (Fin 1) Large (HeapState Large),
    ReflTransGen (Session.TidyStep (HeapState Large) roomForOne) Session.zeroed s.toSession ∧
    s.Legal (.free 0 (Offset.fromBlock ⟨8⟩ (Index.succ .min) ⟨0, 0⟩)) ∧
    (returning s 32).log 0 = some (.unsizedToGlobalSave (Index.succ .min)) ∧
    ∃ w, (Heap.recover roomForOne 0).exec (handle 0) (returning s 32) = .ok ((), w) ∧
      ∀ L, ¬ PushRecovered 0 L w := by
  obtain ⟨s, hs, hlegal, hlog, hw⟩ : ∃ s : Running (Fin 1) Large (HeapState Large),
      Running.script Session.TidyCall roomForOne oneGlobal .zeroed = some s ∧
      (s.Legal (.free 0 (Offset.fromBlock ⟨8⟩ (Index.succ .min) ⟨0, 0⟩)) ∧
        (returning s 32).log 0 = some (.unsizedToGlobalSave (Index.succ .min)) ∧
        ((Heap.recover roomForOne 0).exec (handle 0) (returning s 32)).toOption.any (fun r =>
          r.2.head (.unsized 0) = some (Index.succ .min) ∧
            r.2.next (Index.succ .min) = some .min ∧ r.2.global.inner = some .min) = true) :=
    Session.exists_of_any (by decide +kernel)
  obtain ⟨⟨_, w⟩, hrun, hhead, hnext, hglobal⟩ := exists_of_ok hw
  refine ⟨s, Running.run_of_script hs, hlegal, hlog, w, hrun, ?_⟩
  rintro L ⟨ys, g, hst, -, hg, hdisjoint, -⟩
  have hys := hst.chains.seg none
  rw [update_self] at hys
  refine hdisjoint .min (hg.mem_iff.mpr ⟨[], hglobal⟩) (hys.mem_iff.mpr ⟨[Index.succ .min], ?_⟩)
  exact ⟨hhead, hnext⟩

end Tracked

end Cxlalloc
