/-
Which accesses a call performs.

A thread writes its own stacks, its own row of the help array and its own recovery
record, and nobody else's; that is read off the text of the calls, without knowing
anything about the heap they run on.  What a completed call leaves alone follows.
-/
import Cxlalloc.Detectables

namespace Cxlalloc

open Lib
open Lib.Prog
open Function

variable {T B R α β : Type} [Bracket B]

/-- What a program may do besides writing what belongs to its thread alone. -/
structure Rights (B R : Type) where
  /-- It may write classes and bitsets, -/
  slab : Prop := True
  /-- the remote counters -/
  remote : Prop := True
  /-- and the bump index, -/
  bump : Prop := True
  /-- record these events, -/
  event : Event B → Prop := fun _ => True
  /-- log these records, -/
  log : R → Prop := fun _ => True
  /-- and go on for ever. -/
  diverge : Prop := True

/-- What an access writes for one thread only, it writes for `t`, and it names nobody else as
the owner of a slab; beyond that it does what it may. -/
def Act.By (t : T) (r : Rights B R) (β : Type) : Act T B R β → Prop
  | .storeHead s _ => s.thread = t
  | .storeLen s _ => s.thread = t
  | .storeHelp u _ _ => u = t
  | .storeLog u x => u = t ∧ ∀ s ∈ x, r.log s
  | .storeOwner _ v => ∀ u ∈ v, u = t
  | .storeWord (.remote _) _ => r.remote
  | .casWord (.remote _) _ _ => r.remote
  | .storeWord .bump _ => r.bump
  | .casWord .bump _ _ => r.bump
  | .storeClass _ _ => r.slab
  | .storeBits _ _ => r.slab
  | .record _ e => r.event e
  | .check _ e => e = .diverge → r.diverge
  | .panic e => e = .diverge → r.diverge
  | _ => True

/-- The program is built of such accesses and of whole calls of `Detectable::update`. -/
inductive Built (t : T) (r : Rights B R) : ∀ {α : Type}, Code T B R α → Prop
  | pure {α : Type} (a : α) : Built t r (pure a)
  | lift {β : Type} {act : Act T B R β} (hact : act.By t r) : Built t r (lift act)
  | bind {α β : Type} {p : Code T B R β} {f : β → Code T B R α} (hp : Built t r p)
      (hf : ∀ b, Built t r (f b)) : Built t r (p >>= f)
  | update {α : Type} [FromState B R] {n : ℕ} {o : Obj B α}
      {next : α → Version → Code T B R (Option (α × HeapState B))}
      (ho : ∀ old new : Word T α, (.casWord o old new : Act T B R _).By t r)
      (hnext : ∀ a v, (next a v).Only fun _ act => act.plain ∧ act.By t r)
      (hlog : ∀ a v, (next a v).Yields fun x => ∀ s ∈ x, r.log (FromState.fromState s.2)) :
      Built t r (Detectable.update n t o next)

variable {t : T} {r : Rights B R} {cfg : Config} {i : Index B} {c : B}

theorem Built.ite {P : Prop} [Decidable P] {p q : Code T B R α} (hp : Built t r p)
    (hq : Built t r q) : Built t r (if P then p else q) := by
  split
  · exact hp
  · exact hq

variable {n : ℕ}

theorem BitSet.unset_ne_diverge {v : Bool} {s : BitSet n} {b : Bit} :
    s.unset v b ≠ .error .diverge := by
  unfold BitSet.unset BitSet.checked
  dsimp only
  split_ifs <;> simp

theorem by_panic {e : Panic} (he : e = .diverge → r.diverge) : Built t r (panic e : Code T B R α) :=
  .bind (p := lift (.panic e)) (.lift he) fun b => b.elim

/-- What `update` runs between its load and its compare-exchange may stop. -/
theorem only_panic {e : Panic} (he : e ≠ .diverge) :
    (panic e : Code T B R α).Only fun _ act => act.plain ∧ act.By t r :=
  ⟨⟨rfl, fun h => absurd h he⟩, fun b => b.elim⟩

theorem by_unwrap {o : Option α} : Built t r (unwrap o : Code T B R α) := by
  cases o with
  | none => exact by_panic (by simp)
  | some a => exact .pure a

theorem by_checkedSub {a b : ℕ} : Built t r (checkedSub a b : Code T B R ℕ) :=
  .ite (.pure _) (by_panic (by simp))

theorem by_ofExcept {x : Except Panic α} (hx : x = .error .diverge → r.diverge) :
    Built t r (ofExcept x : Code T B R α) := by
  cases x with
  | error e => exact by_panic fun he => hx (by rw [he])
  | ok a => exact .pure a

theorem by_storeLog {s : R} (hs : r.log s) : Built t r (lift (.storeLog t (some s))) :=
  .lift ⟨rfl, fun _ h => Option.some.inj h ▸ hs⟩

namespace Detectable

theorem only_help {w : Word T α} : (help t w : Code T B R Unit).Only (Act.By t r) := by
  rw [help]
  split
  · exact .pure ()
  · exact .lift rfl

theorem by_help {w : Word T α} : Built t r (help t w : Code T B R Unit) := by
  rw [help]
  split
  · exact .pure ()
  · exact .lift rfl

variable {o : Obj B α}

theorem by_load : Built t r (load t o : Code T B R α) :=
  .bind (.lift trivial) fun _ => .bind by_help fun _ => .pure _

theorem by_store {v : α} (ho : ∀ w : Word T α, (.storeWord o w : Act T B R _).By t r) :
    Built t r (store t o v : Code T B R Unit) :=
  .bind (.lift trivial) fun _ => .bind by_help fun _ => .lift (ho _)

theorem only_updateLoop [FromState B R]
    {next : α → Version → Code T B R (Option (α × HeapState B))} {v : Version}
    {old : Word T α} (ho : ∀ old new : Word T α, (.casWord o old new : Act T B R _).By t r)
    (hnext : ∀ a v, (next a v).Only fun _ act => act.plain ∧ act.By t r)
    (hlog : ∀ a v, (next a v).Yields fun x => ∀ s ∈ x, r.log (FromState.fromState s.2))
    (hr : r.diverge) : (updateLoop t o v next n old).Only (Act.By t r) := by
  induction n generalizing old with
  | zero => exact ⟨fun _ => hr, fun b => b.elim⟩
  | succ n ih =>
    refine .bind only_help fun _ => ?_
    refine .bind_of_yields ((hnext _ _).mono fun _ _ h => h.2) (hlog _ _) fun x hx => ?_
    cases x with
    | none => exact .pure _
    | some x =>
      refine .bind (.lift ⟨rfl, fun s hs => Option.some.inj hs ▸ hx x rfl⟩) fun _ => ?_
      refine .bind (.lift (ho _ _)) fun w => ?_
      cases w with
      | none => exact .pure _
      | some w => exact ih

end Detectable

/-- The accesses of the program are such accesses, if it may go on for ever: `update` may lose
its compare-exchange each time. -/
theorem Built.only {p : Code T B R α} (hp : Built t r p) (hr : r.diverge) :
    p.Only (Act.By t r) := by
  induction hp with
  | pure a => exact .pure a
  | lift hact => exact .lift hact
  | bind _ _ ihp ihf => exact .bind ihp ihf
  | update ho hnext hlog =>
    exact .bind (.lift trivial) fun _ => .bind (.lift rfl) fun _ => .bind (.lift trivial) fun _ =>
      Detectable.only_updateLoop ho hnext hlog hr

variable {head : Option (Index B)}

namespace Stack

variable {s : StackId T B}

theorem by_set (hs : s.thread = t) : Built t r (set s head n : Code T B R Unit) :=
  .bind (.lift hs) fun _ => .lift hs

theorem by_peek : Built t r (peek s : Code T B R _) :=
  .lift trivial

theorem by_pop (hs : s.thread = t) : Built t r (pop s : Code T B R _) := by
  refine .bind (.lift trivial) fun x => ?_
  cases x with
  | none => exact .pure _
  | some i =>
    exact .bind (.lift trivial) fun _ => .bind (.lift hs) fun _ => .bind (.lift trivial)
      fun _ => .bind by_checkedSub fun _ => .bind (.lift hs) fun _ => .pure _

theorem by_push (hs : s.thread = t) : Built t r (push s i : Code T B R Unit) :=
  .bind (.lift trivial) fun _ => .bind (.lift trivial) fun _ => .bind (.lift hs) fun _ =>
    .bind (.lift trivial) fun _ => .lift hs

end Stack

namespace Slab

theorem by_steal : Built t r (steal t i : Code T B R Unit) :=
  .lift fun _ hu => (Option.some.inj hu).symm

theorem by_own : Built t r (own cfg t i : Code T B R Unit) := by
  rw [own]
  split
  · exact .bind (.lift trivial) fun _ => .ite (.bind (by_panic (by simp)) fun _ => by_steal) by_steal
  · exact by_steal

theorem by_link : Built t r (link cfg t head n i : Code T B R Unit) := by
  induction n generalizing i with
  | zero => exact .pure _
  | succ n ih => exact .bind by_own fun _ => .bind (.lift trivial) fun _ => ih

theorem by_disown [DecidableEq T] : Built t r (disown cfg t i : Code T B R Unit) := by
  have hstore : Built t r (lift (.storeOwner i none) : Code T B R Unit) :=
    .lift fun _ hu => by cases hu
  rw [disown]
  split
  · exact .bind (.lift trivial) fun _ => .ite (.bind (by_panic (by simp)) fun _ => hstore) hstore
  · exact hstore

end Slab

namespace Global

variable [FromState B R]

theorem by_push {head tail : Index B}
    (hlog : ∀ v, r.log (FromState.fromState (.unsizedToGlobal head v))) :
    Built t r (push cfg t head tail : Code T B R Unit) := by
  refine .bind (.update (fun _ _ => trivial)
    (fun _ _ => .bind (.lift ⟨rfl, trivial⟩) fun _ => .pure _) fun _ v => .bind fun _ => ?_)
    fun _ => .bind by_unwrap fun _ => .pure _
  rintro s ⟨⟩
  exact hlog v

theorem by_pop (hlog : ∀ (i : Index B) v, r.log (FromState.fromState (.globalToUnsized i v))) :
    Built t r (pop cfg t : Code T B R (Option (Index B))) := by
  refine .bind (.update (fun _ _ => trivial) (fun old v => ?_) fun old v => ?_) fun _ => .pure _
  · cases old with
    | none => exact .pure _
    | some i => exact .bind (.lift ⟨rfl, trivial⟩) fun _ => .pure _
  · cases old with
    | none => exact fun _ h => by cases h
    | some i =>
      rintro _ s ⟨⟩
      exact hlog i v

end Global

namespace Heap

theorem only_addIndex :
    (addIndex i n : Code T B R (Index B)).Only fun _ act => act.plain ∧ act.By t r := by
  rw [addIndex]
  split
  · exact .pure _
  · exact only_panic (by simp)

theorem by_addIndex : Built t r (addIndex i n : Code T B R (Index B)) := by
  rw [addIndex]
  split
  · exact .pure _
  · exact by_panic (by simp)

theorem by_findPrev (hr : r.diverge) {fuel : ℕ} {walk : Index B} :
    Built t r (findPrev i fuel walk : Code T B R (Index B)) := by
  induction fuel generalizing walk with
  | zero => exact by_panic fun _ => hr
  | succ n ih =>
    refine .bind (.lift trivial) fun x => ?_
    cases x with
    | none => exact by_panic (by simp)
    | some j => exact .ite (.pure _) ih

theorem by_sizedToUnsized (hr : r.diverge) :
    Built t r (sizedToUnsized t c i : Code T B R Unit) := by
  refine .bind (.lift trivial) fun _ => .bind (.lift trivial) fun _ => .bind by_unwrap fun _ => ?_
  refine .ite ?_ ?_
  · exact .bind (.lift trivial) fun _ => .bind by_checkedSub fun _ => .bind (Stack.by_set rfl)
      fun _ => Stack.by_push rfl
  · exact .bind (by_findPrev hr) fun _ => .bind (.lift trivial) fun _ => Stack.by_push rfl

theorem by_peekBits {x : Option (Index B)} : Built t r (match x with
    | none => pure none
    | some index => do
      let free ← lift (.loadBits index)
      pure (some (index, free.peekUnchecked)) :
    Code T B R (Option (Index B × Bit))) := by
  cases x with
  | none => exact .pure _
  | some j => exact .bind (.lift trivial) fun _ => .pure _

theorem by_flushBatch : Built t r (flushBatch n head : Code T B R Unit) := by
  induction n generalizing head with
  | zero => exact .pure _
  | succ n ih =>
    cases head with
    | none => exact .pure _
    | some i => exact .bind (.lift trivial) fun _ => .bind (.lift trivial) fun _ => ih

theorem by_intoBlock {o : Offset B} : Built t r (match o.intoBlock c with
    | some block => pure block
    | none => panic .divideByZero : Code T B R Bit) := by
  split
  · exact .pure _
  · exact by_panic (by simp)

theorem by_validateOwned [DecidableEq T] [DecidableEq B] :
    Built t r (validateOwned cfg t : Code T B R Unit) :=
  .ite (.lift (by simp [Act.By])) (.pure _)

section Slabs

variable [DecidableEq T]

theorem by_detach (hevent : ∀ e, r.event e) : Built t r (detach cfg t c i : Code T B R Unit) :=
  .bind (.lift (hevent _)) fun _ => .bind Detectable.by_load fun _ =>
    .ite (.bind (.lift (hevent _)) fun _ => .bind Slab.by_disown fun _ => .lift trivial) (.pure _)

theorem by_pop {b : Bit} (hslab : r.slab) (hevent : ∀ e, r.event e) :
    Built t r (pop cfg t c i b : Code T B R (Offset B)) :=
  .bind (.lift (hevent _)) fun _ => .bind (.lift trivial) fun _ =>
  .bind (by_ofExcept fun h => absurd h BitSet.unset_ne_diverge) fun _ =>
    .bind (.lift hslab) fun _ => .ite
      (.bind (Stack.by_pop rfl) fun _ => .bind by_unwrap fun _ => .bind (by_detach hevent) fun _ =>
        .pure _) (.pure _)

theorem by_takeBatch : Built t r (takeBatch cfg t n head : Code T B R (List (Index B))) := by
  induction n generalizing head with
  | zero => exact .pure _
  | succ n ih =>
    cases head with
    | none => exact .pure _
    | some i =>
      refine .bind (.lift trivial) fun _ => ?_
      exact .ite (.bind Slab.by_disown fun _ => .bind ih fun _ => .pure _)
        (.bind ih fun _ => .pure _)

end Slabs

variable [FromState B R]

theorem by_unsizedToSized (hslab : r.slab) (hremote : r.remote)
    (hlog : ∀ i, r.log (FromState.fromState (.unsizedToSized i c))) :
    Built t r (unsizedToSized t c : Code T B R Bool) := by
  refine .bind (.lift trivial) fun x => ?_
  cases x with
  | none => exact .pure _
  | some i =>
    exact .bind (.lift trivial) fun _ => .bind (by_storeLog (hlog _)) fun _ =>
      .bind (.lift hslab) fun _ => .bind (.lift trivial) fun _ => .bind (.lift hslab) fun _ =>
      .bind (Stack.by_push rfl) fun _ => .bind (Detectable.by_store fun _ => hremote) fun _ =>
      .bind (.lift trivial) fun _ => .bind by_checkedSub fun _ => .bind (Stack.by_set rfl)
      fun _ => .pure _

theorem by_bumpRange (hbump : r.bump) (hlog : ∀ s, r.log s) :
    Built t r (bumpRange cfg t : Code T B R (Index B × Index B)) :=
  .bind (.update (fun _ _ => hbump) (fun _ _ => .bind only_addIndex fun _ => .pure _)
    fun _ _ => .bind fun _ => fun _ _ => hlog _)
    fun _ => .bind by_unwrap fun _ => .bind by_addIndex fun _ => .pure _

/-- The countdown of `free_remote`. -/
theorem by_countdown (hremote : r.remote) (hlog : ∀ s, r.log s) :
    Built t r (Detectable.update cfg.retry t (.remote i) fun rem version => do
      if cfg.validate && rem.free == 0 then panic .remoteExhausted
      let next ← checkedSub rem.free 1
      pure (some (⟨next⟩, .remote i version (rem.free == 1))) : Code T B R _) := by
  refine .update (fun _ _ => hremote) (fun rem v => ?_) fun rem v => ?_
  · have hsub : (do
        let next ← checkedSub rem.free 1
        pure (some (⟨next⟩, .remote i v (rem.free == 1))) :
          Code T B R (Option (Remote × HeapState B))).Only fun _ act => act.plain ∧ act.By t r :=
      .bind (.ite (.pure _) (only_panic (by simp))) fun _ => .pure _
    exact .ite (.bind (only_panic (by simp)) fun _ => hsub) hsub
  · split
    · exact .bind fun _ => .bind fun _ _ _ => hlog _
    · exact .bind fun _ _ _ => hlog _

theorem by_sharedPop
    (hlog : ∀ (i : Index B) v, r.log (FromState.fromState (.globalToUnsized i v))) :
    Built t r (sharedPop cfg t : Code T B R (Option (Index B))) :=
  .bind (.bind Detectable.by_load fun _ => .pure _) fun _ => .ite (.pure _) (Global.by_pop hlog)

variable [DecidableEq T]

theorem by_unsizedToGlobal (hevent : r.event .unsizedToGlobal) (hlog : ∀ s, r.log s) :
    Built t r (unsizedToGlobal cfg t : Code T B R Unit) :=
  .bind (.lift trivial) fun _ => .ite (.pure _) (.bind (.lift hevent) fun _ =>
    .bind (.lift trivial) fun _ => .bind by_takeBatch fun _ => .bind by_unwrap fun _ =>
    .bind (.lift trivial) fun _ => .bind (by_storeLog (hlog _)) fun _ => .bind by_checkedSub fun _ =>
    .bind (Stack.by_set rfl) fun _ => .bind by_flushBatch fun _ => Global.by_push fun _ => hlog _)

variable [DecidableEq B]

variable {d : Prop}

theorem by_allocate :
    Built t { diverge := d } (allocate cfg t c : Code T B R (Option (Index B))) := by
  have hsized : Built t { diverge := d } (do
      lift (.record t (.unsizedToSized c))
      validateOwned cfg t
      Stack.peek (.sized t c) : Code T B R (Option (Index B))) :=
    .bind (.lift trivial) fun _ => .bind by_validateOwned fun _ => .lift trivial
  have hcarve : Built t { diverge := d } (unsizedToSized t c : Code T B R Bool) :=
    by_unsizedToSized trivial trivial fun _ => trivial
  refine .ite (.pure _) (.bind hcarve fun _ => .ite hsized
    (.bind (by_sharedPop fun _ _ => trivial) fun x => ?_))
  cases x with
  | some j =>
    exact .bind (.lift trivial) fun _ => .bind Slab.by_own fun _ => .bind (Stack.by_push rfl)
      fun _ => .bind hcarve fun _ => hsized
  | none =>
    exact .bind (by_bumpRange trivial fun _ => trivial) fun _ => .bind (.lift trivial) fun _ =>
      .bind Slab.by_link fun _ => .bind (Stack.by_set rfl) fun _ => .bind hcarve fun _ => hsized

theorem by_peek :
    Built t { diverge := d } (peek cfg t c : Code T B R (Option (Index B × Bit))) := by
  refine .bind (.lift trivial) fun x => ?_
  cases x with
  | some j => exact by_peekBits (x := some j)
  | none => exact .bind by_allocate fun _ => by_peekBits

theorem by_allocateBlock :
    Built t { diverge := d } (allocateBlock cfg t c : Code T B R (Option (Offset B))) := by
  refine .bind by_peek fun x => ?_
  cases x with
  | none => exact .pure _
  | some x => exact .bind (by_pop trivial fun _ => trivial) fun _ => .pure _

theorem by_claim (hevent : ∀ e, r.event e) (hlog : ∀ s, r.log s) :
    Built t r (claim cfg t c i : Code T B R Unit) :=
  .bind (.lift (hevent _)) fun _ => .bind Slab.by_steal fun _ => .bind (Stack.by_push rfl) fun _ =>
    .bind by_validateOwned fun _ => by_unsizedToGlobal (hevent _) hlog

theorem by_freeRemote (hremote : r.remote) (hevent : ∀ e, r.event e) (hlog : ∀ s, r.log s) :
    Built t r (freeRemote cfg t i : Code T B R Unit) :=
  .bind (.lift trivial) fun _ => .bind (.lift (hevent _)) fun _ =>
    .bind (by_countdown hremote hlog) fun _ => .bind by_unwrap fun _ =>
    .ite (by_claim hevent hlog) (.pure _)

theorem by_free {o : Offset B} : Built t { bump := False } (free cfg t o : Code T B R Unit) := by
  refine .bind by_unwrap fun _ => .bind (.lift trivial) fun _ =>
    .ite (by_freeRemote trivial (fun _ => trivial) fun _ => trivial) ?_
  refine .bind (.lift trivial) fun c => ?_
  have hfull : ∀ n j, Built t { bump := False } (if n < Bracket.count c then pure ()
      else do
        sizedToUnsized t c j
        validateOwned cfg t
        lift (.record t (.sizedToUnsized c))
        unsizedToGlobal cfg t : Code T B R Unit) := fun n j =>
    .ite (.pure _) (.bind (by_sizedToUnsized trivial) fun _ => .bind by_validateOwned fun _ =>
      .bind (.lift trivial) fun _ => by_unsizedToGlobal trivial fun _ => trivial)
  exact .bind by_intoBlock fun _ => .bind (.lift trivial) fun _ =>
    .bind (by_storeLog trivial) fun _ => .bind (.lift trivial) fun _ =>
    .bind (by_ofExcept fun _ => trivial) fun _ =>
    .bind (.lift trivial) fun _ =>
    .ite (.bind (.bind (.lift trivial) fun _ => Stack.by_push rfl) fun _ => hfull _ _) (hfull _ _)

end Heap

/-! ### What a run leaves alone -/

section Kept

variable [DecidableEq T] [DecidableEq B] {p : Code T B R α} {a : α} {m m' : Mem T B R}

/-- The record and the unsized stack of thread `u` are as they were. -/
def Mem.Kept (u : T) (m m' : Mem T B R) : Prop :=
  m'.log u = m.log u ∧ m'.head (.unsized u) = m.head (.unsized u) ∧
    m'.len (.unsized u) = m.len (.unsized u)

omit [DecidableEq T] [DecidableEq B] in
theorem Mem.Kept.trans {u : T} {m'' : Mem T B R} (h : Mem.Kept u m m') (h' : Mem.Kept u m' m'') :
    Mem.Kept u m m'' :=
  ⟨h'.1.trans h.1, h'.2.1.trans h.2.1, h'.2.2.trans h.2.2⟩

/-- The record of thread `u` after an access. -/
def Act.logged (u : T) (r : Option R) : Act T B R β → Option R
  | .storeLog v s => if v = u then s else r
  | _ => r

/-- Its row of the help array. -/
def Act.helped (u : T) (row : T → Version) : Act T B R β → T → Version
  | .storeHelp v j x => if v = u then update row j x else row
  | _ => row

theorem Mem.logged_handle {act : Act T B R β} {b : β} (h : Mem.handle β act m = .ok (b, m'))
    (u : T) : m'.log u = act.logged u (m.log u) ∧ m'.help u = act.helped u (m.help u) := by
  cases act with
  | storeLog v r =>
    obtain ⟨-, rfl⟩ := ok_inj h
    refine ⟨?_, rfl⟩
    rw [Act.logged]
    split_ifs with hv
    · rw [hv]
      exact update_self ..
    · exact update_of_ne (Ne.symm hv) _ _
  | storeHelp v j x =>
    obtain ⟨-, rfl⟩ := ok_inj h
    refine ⟨rfl, ?_⟩
    rw [Act.helped]
    split_ifs with hv
    · rw [hv]
      exact update_self ..
    · exact update_of_ne (Ne.symm hv) _ _
  | storeWord o w =>
    obtain ⟨-, rfl⟩ := ok_inj h
    cases o <;> exact ⟨rfl, rfl⟩
  | casWord o old new =>
    rw [Mem.handle] at h
    split at h
    · obtain ⟨-, rfl⟩ := ok_inj h
      cases o <;> exact ⟨rfl, rfl⟩
    · obtain ⟨-, rfl⟩ := ok_inj h
      exact ⟨rfl, rfl⟩
  | check q e =>
    rw [Mem.handle] at h
    split at h
    · obtain ⟨-, rfl⟩ := ok_inj h
      exact ⟨rfl, rfl⟩
    · cases h
  | panic e => cases h
  | _ =>
    obtain ⟨-, rfl⟩ := ok_inj h
    exact ⟨rfl, rfl⟩

/-- A program of one thread leaves the other threads alone. -/
theorem Mem.kept_of_by (hp : p.Only (Act.By t r))
    (hx : p.exec Mem.handle m = .ok (a, m')) {u : T} (hu : u ≠ t) : Mem.Kept u m m' := by
  have hkept := hp.exec (f := fun m : Mem T B R =>
    (m.log u, m.head (.unsized u), m.len (.unsized u))) ?_ hx
  · simpa [Mem.Kept] using hkept
  · intro β act m b m' hact hm
    cases act with
    | storeHead s v =>
      obtain ⟨-, rfl⟩ := ok_inj hm
      have hs : StackId.unsized u ≠ s := fun e => hu (by rw [← hact, ← e]; rfl)
      simp [update_of_ne hs]
    | storeLen s n =>
      obtain ⟨-, rfl⟩ := ok_inj hm
      have hs : StackId.unsized u ≠ s := fun e => hu (by rw [← hact, ← e]; rfl)
      simp [update_of_ne hs]
    | storeLog v r =>
      obtain ⟨-, rfl⟩ := ok_inj hm
      obtain ⟨rfl, -⟩ : v = t ∧ _ := hact
      simp [update_of_ne hu]
    | storeWord o w =>
      obtain ⟨-, rfl⟩ := ok_inj hm
      cases o <;> rfl
    | casWord o old new =>
      rw [Mem.handle] at hm
      split at hm
      · obtain ⟨-, rfl⟩ := ok_inj hm
        cases o <;> rfl
      · obtain ⟨-, rfl⟩ := ok_inj hm
        rfl
    | check q e =>
      rw [Mem.handle] at hm
      split at hm
      · obtain ⟨-, rfl⟩ := ok_inj hm
        rfl
      · cases hm
    | panic e => cases hm
    | _ =>
      obtain ⟨-, rfl⟩ := ok_inj hm
      rfl

/-- A word that the access may not write is as it was. -/
theorem Mem.words_of_by {act : Act T B R β} {b : β} (hact : act.By t r)
    (h : Mem.handle β act m = .ok (b, m')) :
    (¬ r.remote → m'.remote = m.remote) ∧ (¬ r.bump → m'.bump = m.bump) := by
  have hset : ∀ {γ : Type} (o : Obj B γ) (w : Word T γ),
      (.storeWord o w : Act T B R _).By t r → (¬ r.remote → (m.setWord o w).remote = m.remote) ∧
        (¬ r.bump → (m.setWord o w).bump = m.bump) := by
    intro γ o w ho
    cases o with
    | global => exact ⟨fun _ => rfl, fun _ => rfl⟩
    | bump => exact ⟨fun _ => rfl, fun hr => absurd ho hr⟩
    | remote i => exact ⟨fun hr => absurd ho hr, fun _ => rfl⟩
  cases act with
  | storeWord o w =>
    obtain ⟨-, rfl⟩ := ok_inj h
    exact hset o w hact
  | casWord o old new =>
    rw [Mem.handle] at h
    split at h
    · obtain ⟨-, rfl⟩ := ok_inj h
      exact hset o new (by cases o <;> exact hact)
    · obtain ⟨-, rfl⟩ := ok_inj h
      exact ⟨fun _ => rfl, fun _ => rfl⟩
  | check q e =>
    rw [Mem.handle] at h
    split at h
    · obtain ⟨-, rfl⟩ := ok_inj h
      exact ⟨fun _ => rfl, fun _ => rfl⟩
    · cases h
  | panic e => cases h
  | _ =>
    obtain ⟨-, rfl⟩ := ok_inj h
    exact ⟨fun _ => rfl, fun _ => rfl⟩

/-- The remote counters, if no access writes one. -/
theorem Mem.remote_of_by (hp : p.Only (Act.By t r)) (hr : ¬ r.remote)
    (hx : p.exec Mem.handle m = .ok (a, m')) : m'.remote = m.remote :=
  hp.exec (f := fun m : Mem T B R => m.remote)
    (fun _ _ _ _ _ hact h => (words_of_by hact h).1 hr) hx

/-- The bump index, if no access writes it. -/
theorem Mem.bump_of_by (hp : p.Only (Act.By t r)) (hr : ¬ r.bump)
    (hx : p.exec Mem.handle m = .ok (a, m')) : m'.bump = m.bump :=
  hp.exec (f := fun m : Mem T B R => m.bump)
    (fun _ _ _ _ _ hact h => (words_of_by hact h).2 hr) hx

end Kept

end Cxlalloc
