/-
Running the code of a thread that may crash.

`Stacks` says which slabs the stacks of the thread hold.  It survives whatever the other
threads do, and so does everything else that is read off the thread's own memory.  One
rule per access: those to the thread's own memory run as if nobody else were there, those
to shared words meet a memory that the others left.
-/
import Cxlalloc.Crash
import Cxlalloc.Proofs.Footprint
import Cxlalloc.Proofs.IsValid

namespace Cxlalloc

open Lib
open Lib.Prog
open Function

variable {T B : Type}

namespace StackId

variable {t : T} {k : Option B}

@[simp] theorem thread_of : (StackId.of t k).thread = t := by
  cases k <;> rfl

end StackId

namespace Tracked

variable [Bracket B] {t : T} {x y : Tracked T B} {L : Option B → List (Index B)} {i : Index B}

/-- The stacks of thread `t` hold `L`, of its own slabs. -/
structure Stacks (t : T) (x : Tracked T B) (L : Option B → List (Index B)) : Prop where
  chains : Chains x.next (fun k => x.head (.of t k)) L
  mine : ∀ k, ∀ i ∈ L k, i ∈ x.mine
  below : ∀ k, ∀ i ∈ L k, i.value < 2 ^ 32

/-- The recorded lengths are those of the lists. -/
def Lens (t : T) (x : Tracked T B) (L : Option B → List (Index B)) : Prop :=
  ∀ k, x.len (.of t k) = (L k).length

theorem Stacks.leaves (hx : x.Stacks t L) (hxy : Leaves t x y) : y.Stacks t L := by
  constructor
  · have hheads : (fun k => y.head (.of t k)) = fun k : Option B => x.head (.of t k) :=
      funext fun k => hxy.head _ StackId.thread_of
    rw [hheads]
    exact hx.chains.frame fun k i hi => hxy.next i (hx.mine k i hi)
  · intro k i hi
    rw [hxy.mine]
    exact hx.mine k i hi
  · exact hx.below

omit [Bracket B] in
/-- A list of 32-bit indices is shorter than there are such indices. -/
theorem length_lt_walkFuel {xs : List (Index B)} (hnd : xs.Nodup)
    (hbelow : ∀ i ∈ xs, i.value < 2 ^ 32) : xs.length < walkFuel := by
  have hnd' : (xs.map Index.value).Nodup := hnd.map fun _ _ e => Index.ext e
  have hsub : xs.map Index.value ⊆ List.range' 1 (2 ^ 32 - 1) := by
    intro v hv
    obtain ⟨j, hj, rfl⟩ := List.mem_map.mp hv
    have hpos := j.pos
    have hlt := hbelow j hj
    rw [List.mem_range'_1]
    omega
  have hlen := (List.subperm_of_subset hnd' hsub).length_le
  rw [List.length_map, List.length_range'] at hlen
  rw [walkFuel]
  omega

theorem Stacks.length_lt (hx : x.Stacks t L) (k : Option B) : (L k).length < walkFuel :=
  length_lt_walkFuel (hx.chains.nodup k) (hx.below k)

theorem Lens.leaves (hx : x.Lens t L) (hxy : Leaves t x y) : y.Lens t L :=
  fun k => (hxy.len _ StackId.thread_of).trans (hx k)

theorem Leaves.full (hxy : Leaves t x y) (hi : i ∈ x.mine) : y.Full i ↔ x.Full i := by
  unfold Full
  rw [hxy.bits i hi, hxy.sizeClass i hi]

/-- The links of the thread's own slabs are no part of the global stack. -/
theorem Apart.congr (hx : x.Apart) (hglobal : y.global.inner = x.global.inner)
    (hmine : y.mine = x.mine) (htheirs : y.theirs = x.theirs)
    (hnext : ∀ i, i ∉ x.mine → y.next i = x.next i) : y.Apart := by
  obtain ⟨⟨xs, hseg, hmem⟩, hrest⟩ := hx
  refine ⟨⟨xs, ?_, fun i => by rw [hmine, htheirs, hmem]⟩, by rw [hmine, htheirs]; exact hrest⟩
  rw [hglobal]
  exact hseg.congr fun i hi => hnext i ((hmem i).mp hi).1

/-- The top of the global stack is nobody's. -/
theorem Apart.top (hx : x.Apart) (hi : x.global.inner = some i) : i ∉ x.mine ∧ i ∉ x.theirs := by
  obtain ⟨⟨xs, hseg, hmem⟩, -⟩ := hx
  rw [hi] at hseg
  exact (hmem i).mp (List.mem_of_mem_head? hseg.head_eq.symm)

omit [Bracket B] in
theorem heads_update [DecidableEq T] [DecidableEq B] {h : StackId T B → Option (Index B)}
    {k₀ : Option B} {v : Option (Index B)} :
    (fun k => update h (.of t k₀) v (.of t k)) = update (fun k => h (.of t k)) k₀ v := by
  funext k
  by_cases hk : k = k₀
  · rw [hk, update_self, update_self]
  · rw [update_of_ne hk, update_of_ne (by simpa using hk)]

omit [Bracket B] in
theorem update_unsized [DecidableEq T] [DecidableEq B] {γ : Type} (f : StackId T B → γ) (v : γ)
    (c : B) : update f (.unsized t) v (.sized t c) = f (.sized t c) :=
  update_of_ne (by simp) _ _

/-! ### Before a call -/

section Start

variable {cfg : Config} {m : Mem T B (HeapState B)} {a : Ledger T B} {freeing : Option (Index B)}

theorem stacks_start (inv : Inv cfg m.toHeap a) :
    (start t m freeing).Stacks t fun k => a.chain (some (.of t k)) where
  chains := inv.chains_of t
  mine k _ hi := ⟨k, _, inv.chains.seg (some (.of t k)), hi⟩
  below _ _ hi := (inv.below hi).trans inv.bound

theorem mem_mine_start (inv : Inv cfg m.toHeap a) :
    i ∈ (start t m freeing).mine ↔ ∃ k, i ∈ a.chain (some (.of t k)) := by
  constructor
  · rintro ⟨k, xs, hseg, hi⟩
    exact ⟨k, hseg.unique (inv.chains.seg (some (.of t k))) ▸ hi⟩
  · rintro ⟨k, hi⟩
    exact (stacks_start inv).mine k i hi

theorem mem_theirs_start (inv : Inv cfg m.toHeap a) :
    i ∈ (start t m freeing).theirs ↔
      i ∉ (start t m freeing).mine ∧ i ∉ a.chain none := by
  refine and_congr_right fun _ => not_congr ⟨?_, fun hi => ⟨_, inv.chains.seg none, hi⟩⟩
  rintro ⟨xs, hseg, hi⟩
  exact hseg.unique (inv.chains.seg none) ▸ hi

theorem apart_start (inv : Inv cfg m.toHeap a) : (start t m freeing).Apart := by
  refine ⟨⟨a.chain none, inv.chains.seg none, fun i => ?_⟩, fun i hi htheirs => ?_, fun i hi => ?_⟩
  · rw [mem_theirs_start inv, mem_mine_start inv]
    constructor
    · intro hi
      refine ⟨?_, fun h => h.2 hi⟩
      rintro ⟨k, hk⟩
      exact absurd (inv.chains.disjoint _ _ i hi hk) (by simp)
    · rintro ⟨hmine, htheirs⟩
      by_contra hi
      exact htheirs ⟨hmine, hi⟩
  · exact ((mem_theirs_start inv).mp htheirs).1 hi
  · rw [mem_theirs_start inv, mem_mine_start inv, not_and_or, not_not, not_not] at hi
    rcases hi with ⟨k, hk⟩ | hi
    · exact (inv.below hk).trans inv.bound
    · exact (inv.below hi).trans inv.bound

theorem lens_start (inv : Inv cfg m.toHeap a) (hexact : a.ExactAt t) :
    (start t m freeing).Lens t fun k => a.chain (some (.of t k)) := by
  intro k
  refine (inv.lens (.of t k)).trans ?_
  cases k with
  | none => rw [show a.excess (.of t none) = 0 from hexact.1, Nat.add_zero]
  | some c => rw [show a.excess (.of t (some c)) = 0 from hexact.2 c, Nat.add_zero]

end Start

/-! ### What the other threads do, while the thread writes its own memory -/

section Updates

variable {v : Option (Index B)} {s : StackId T B}

omit [Bracket B] in
theorem update_congr {ι γ : Type} [DecidableEq ι] {f g : ι → γ} {i j : ι} {a : γ} (h : g j = f j) :
    update g i a j = update f i a j := by
  by_cases heq : j = i
  · rw [heq, update_self, update_self]
  · rw [update_of_ne heq, update_of_ne heq, h]

theorem Leaves.next_update (hxy : Leaves t x y) (hi : i ∈ x.mine) :
    Leaves t { x with next := update x.next i v } { y with next := update y.next i v } := by
  have hoff : ∀ (z : Tracked T B) j, j ∉ z.mine → i ∈ z.mine → update z.next i v j = z.next j :=
    fun z j hj hi => update_of_ne (fun (heq : j = i) => hj (heq ▸ hi)) _ _
  refine { hxy with next := fun j hj => update_congr (hxy.next j hj), apart := fun hx => ?_ }
  have hx' : x.Apart := hx.congr rfl rfl rfl fun j hj => (hoff x j hj hi).symm
  exact (hxy.apart hx').congr rfl rfl rfl fun j hj => hoff y j hj (hxy.mine ▸ hi)

theorem Leaves.owner_update {o : Option T} (hxy : Leaves t x y) :
    Leaves t
      { x with
        owner := update x.owner i o, lastOwner := update x.lastOwner i (o.or (x.lastOwner i)) }
      { y with
        owner := update y.owner i o, lastOwner := update y.lastOwner i (o.or (y.lastOwner i)) } :=
  { hxy with owner := fun j hj => update_congr (hxy.owner j hj) }

theorem Leaves.remote_update {w : Word T Remote} (hxy : Leaves t x y) (hi : i ∈ x.mine) :
    Leaves t { x with remote := update x.remote i w } { y with remote := update y.remote i w } := by
  refine { hxy with counter := fun j hj hfull => ?_, pending := fun j hj hfrees hp => ?_ }
  · show (update y.remote i w j).inner = (update x.remote i w j).inner
    by_cases heq : j = i
    · rw [heq, update_self, update_self]
    · rw [update_of_ne heq, update_of_ne heq]
      exact hxy.counter j hj hfull
  · obtain ⟨htheirs, hmine, hpos⟩ := hp
    have hne : j ≠ i := fun heq => hmine (heq ▸ hi)
    have hpos : 0 < (update x.remote i w j).inner.free := hpos
    rw [update_of_ne hne] at hpos
    obtain ⟨htheirs, hmine, hpos⟩ := hxy.pending j hj hfrees ⟨htheirs, hmine, hpos⟩
    refine ⟨htheirs, hmine, ?_⟩
    show 0 < (update y.remote i w j).inner.free
    rwa [update_of_ne hne]

variable [DecidableEq T]

theorem Leaves.help_update {j : T} {w : Version} (hxy : Leaves t x y) :
    Leaves t { x with help := update x.help t (update (x.help t) j w) }
      { y with help := update y.help t (update (y.help t) j w) } := by
  refine { hxy with version := ?_ }
  show update y.help t _ t t = update x.help t _ t t
  rw [update_self, update_self]
  exact update_congr hxy.version

theorem Leaves.log_update {r : Option (HeapState B)} (hxy : Leaves t x y) :
    Leaves t { x with log := update x.log t r, cas := some false }
      { y with log := update y.log t r, cas := some false } := by
  refine { hxy with log := ?_, cas := rfl }
  show update y.log t _ t = update x.log t _ t
  rw [update_self, update_self]

variable [DecidableEq B]

theorem Leaves.head_update (hxy : Leaves t x y) :
    Leaves t { x with head := update x.head s v } { y with head := update y.head s v } :=
  { hxy with head := fun s' hs' => update_congr (hxy.head s' hs') }

theorem Leaves.len_update {n : ℕ} (hxy : Leaves t x y) :
    Leaves t { x with len := update x.len s n } { y with len := update y.len s n } :=
  { hxy with len := fun s' hs' => update_congr (hxy.len s' hs') }

end Updates

/-! ### The accesses of the thread -/

section Accesses

variable [DecidableEq T] [DecidableEq B] {α β : Type} {s : StackId T B}
  {Q : α → Tracked T B → Prop} {C : Tracked T B → Prop} {E : Panic → Prop}
  {v : Option (Index B)}

/-- The run of a program of thread `t`, whatever the other threads do. -/
abbrev Runs (t : T) (p : HeapCode T B α) (Q : α → Tracked T B → Prop)
    (C : Tracked T B → Prop) (E : Panic → Prop) (x : Tracked T B) : Prop :=
  wpc (handle t) (Leaves t) p Q C E x

theorem runs_pure {a : α} (hQ : Stable (Leaves t) (Q a)) (hC : Stable (Leaves t) C) (hc : C x)
    (hq : Q a x) : Runs t (pure a) Q C E x :=
  wpc_pure hQ hC hc hq

theorem runs_bind {p : HeapCode T B β} {f : β → HeapCode T B α} :
    Runs t (p >>= f) Q C E x ↔ Runs t p (fun b y => Runs t (f b) Q C E y) C E x :=
  wpc_bind (Leaves.refl t) fun _ _ _ => Leaves.trans

theorem runs_stable {p : HeapCode T B α} : Stable (Leaves t) (Runs t p Q C E) :=
  wpc_stable fun _ _ _ => Leaves.trans

theorem runs_own {act : Access T B β} {f : β → HeapCode T B α} {b : β}
    {x₁ : Tracked T B} (hC : Stable (Leaves t) C)
    (hcomm : ∀ y, Leaves t x y → ∃ y₁, handle t β act y = .ok (b, y₁) ∧ Leaves t x₁ y₁)
    (hc : C x) (hk : Runs t (f b) Q C E x₁) : Runs t (lift act >>= f) Q C E x :=
  wpc_of_commutes hC hcomm hc hk fun _ _ _ => Leaves.trans

variable {f : Unit → HeapCode T B α} (hC : Stable (Leaves t) C) (hc : C x)
include hC hc

theorem runs_panic {p : Panic} {f : β → HeapCode T B α} (he : E p) :
    Runs t (panic p >>= f) Q C E x :=
  fun y hxy => ⟨hC x y hxy hc, he⟩

theorem runs_loadHead {f : Option (Index B) → HeapCode T B α} (hs : s.thread = t)
    (hk : Runs t (f (x.head s)) Q C E x) : Runs t (lift (.loadHead s) >>= f) Q C E x := by
  refine runs_own hC (fun y hxy => ⟨y, ?_, hxy⟩) hc hk
  rw [← hxy.head s hs]
  rfl

theorem runs_loadLen {f : ℕ → HeapCode T B α} (hs : s.thread = t)
    (hk : Runs t (f (x.len s)) Q C E x) : Runs t (lift (.loadLen s) >>= f) Q C E x := by
  refine runs_own hC (fun y hxy => ⟨y, ?_, hxy⟩) hc hk
  rw [← hxy.len s hs]
  rfl

theorem runs_loadNext {f : Option (Index B) → HeapCode T B α} (hi : i ∈ x.mine)
    (hk : Runs t (f (x.next i)) Q C E x) : Runs t (lift (.loadNext i) >>= f) Q C E x := by
  refine runs_own hC (fun y hxy => ⟨y, ?_, hxy⟩) hc hk
  rw [← hxy.next i hi]
  rfl

theorem runs_loadOwner {f : Option T → HeapCode T B α} (hi : i ∈ x.mine)
    (hk : Runs t (f (x.owner i)) Q C E x) : Runs t (lift (.loadOwner i) >>= f) Q C E x := by
  refine runs_own hC (fun y hxy => ⟨y, ?_, hxy⟩) hc hk
  rw [← hxy.owner i hi]
  rfl

theorem runs_loadBits {f : BitSet (Bracket.rows B) → HeapCode T B α} (hi : i ∈ x.mine)
    (hk : Runs t (f (x.bits i)) Q C E x) : Runs t (lift (.loadBits i) >>= f) Q C E x := by
  refine runs_own hC (fun y hxy => ⟨y, ?_, hxy⟩) hc hk
  rw [← hxy.bits i hi]
  rfl

theorem runs_loadVersion {f : Version → HeapCode T B α}
    (hk : Runs t (f (x.help t t)) Q C E x) : Runs t (lift (.loadHelp t t) >>= f) Q C E x := by
  refine runs_own hC (fun y hxy => ⟨y, ?_, hxy⟩) hc hk
  rw [← hxy.version]
  rfl

theorem runs_record {e : Event B}
    (hk : Runs t (f ()) Q C E x) : Runs t (lift (.record t e) >>= f) Q C E x :=
  runs_own hC (fun y hxy => ⟨y, rfl, hxy⟩) hc hk

theorem runs_flushCxl (hk : Runs t (f ()) Q C E x) : Runs t (lift (.flushCxl i) >>= f) Q C E x :=
  runs_own hC (fun y hxy => ⟨y, rfl, hxy⟩) hc hk

theorem runs_storeHead (hk : Runs t (f ()) Q C E { x with head := update x.head s v }) :
    Runs t (lift (.storeHead s v) >>= f) Q C E x :=
  runs_own hC (fun _ hxy => ⟨_, rfl, hxy.head_update⟩) hc hk

theorem runs_storeLen {n : ℕ} (hk : Runs t (f ()) Q C E { x with len := update x.len s n }) :
    Runs t (lift (.storeLen s n) >>= f) Q C E x :=
  runs_own hC (fun _ hxy => ⟨_, rfl, hxy.len_update⟩) hc hk

theorem runs_storeNext (hi : i ∈ x.mine)
    (hk : Runs t (f ()) Q C E { x with next := update x.next i v }) :
    Runs t (lift (.storeNext i v) >>= f) Q C E x :=
  runs_own hC (fun _ hxy => ⟨_, rfl, hxy.next_update hi⟩) hc hk

theorem runs_storeOwner {o : Option T}
    (hk : Runs t (f ()) Q C E { x with
      owner := update x.owner i o
      lastOwner := update x.lastOwner i (o.or (x.lastOwner i)) }) :
    Runs t (lift (.storeOwner i o) >>= f) Q C E x :=
  runs_own hC (fun _ hxy => ⟨_, rfl, hxy.owner_update⟩) hc hk

theorem runs_log {r : HeapState B}
    (hk : Runs t (f ()) Q C E { x with log := update x.log t (some r), cas := some false }) :
    Runs t (Heap.log t r >>= f) Q C E x :=
  runs_own hC (fun _ hxy => ⟨_, rfl, hxy.log_update⟩) hc hk

theorem runs_storeCounter {w : Word T Remote}
    (hi : i ∈ x.mine) (hk : Runs t (f ()) Q C E { x with remote := update x.remote i w }) :
    Runs t (lift (.storeWord (.remote i) w) >>= f) Q C E x :=
  runs_own hC (fun _ hxy => ⟨_, rfl, hxy.remote_update hi⟩) hc hk

/-- Whatever the other threads did, a store of the class meets it. -/
theorem runs_storeClass {c : B}
    (hk : ∀ y, Leaves t x y →
      Runs t (f ()) Q C E { y with sizeClass := update y.sizeClass i c }) :
    Runs t (lift (.storeClass i c) >>= f) Q C E x :=
  wpc_access fun y hxy => ⟨hC x y hxy hc, hk y hxy⟩

theorem runs_storeBits {b : BitSet (Bracket.rows B)}
    (hk : ∀ y, Leaves t x y → Runs t (f ()) Q C E { y with bits := update y.bits i b }) :
    Runs t (lift (.storeBits i b) >>= f) Q C E x :=
  wpc_access fun y hxy => ⟨hC x y hxy hc, hk y hxy⟩

/-! ### Shared words -/

variable {γ : Type}

/-- A load sees a word the other threads left. -/
theorem runs_loadWord {o : Obj B γ} {f : Word T γ → HeapCode T B α}
    (hk : ∀ y, Leaves t x y → Runs t (f (y.word o)) Q C E x) :
    Runs t (lift (.loadWord o) >>= f) Q C E x :=
  wpc_access fun y hxy => ⟨hC x y hxy hc, runs_stable x y hxy (hk y hxy)⟩

theorem runs_loadShared {f : Option (Index B) → HeapCode T B α}
    (hk : ∀ v, Runs t (f v) Q C E x) : Runs t (lift (.loadNext i) >>= f) Q C E x :=
  wpc_access fun y hxy => ⟨hC x y hxy hc, runs_stable x y hxy (hk (y.next i))⟩

theorem runs_loadClass {f : B → HeapCode T B α}
    (hk : ∀ c, Runs t (f c) Q C E x) : Runs t (lift (.loadClass i) >>= f) Q C E x :=
  wpc_access fun y hxy => ⟨hC x y hxy hc, runs_stable x y hxy (hk (y.sizeClass i))⟩

/-- A compare-exchange meets a word the other threads left. -/
theorem runs_casWord {o : Obj B γ} {old new : Word T γ}
    {f : Option (Word T γ) → HeapCode T B α}
    (hok : ∀ y, Leaves t x y → y.word o = old → Runs t (f none) Q C E
      (y.advance t { y.toMem with toHeap := y.setWord o new } (.casWord o old new) none))
    (herr : ∀ y, Leaves t x y → Runs t (f (some (y.word o))) Q C E x) :
    Runs t (lift (.casWord o old new) >>= f) Q C E x := by
  refine wpc_access fun y hxy => ⟨hC x y hxy hc, ?_⟩
  by_cases hw : y.word o = old
  · have hact : handle t _ (.casWord o old new) y = .ok (none,
        y.advance t { y.toMem with toHeap := y.setWord o new } (.casWord o old new) none) := by
      simp only [handle, Mem.handle, hw, decide_true, if_true]
    rw [hact]
    exact hok y hxy hw
  · have hact : handle t _ (.casWord o old new) y = .ok (some (y.word o), y) := by
      simp only [handle, Mem.handle, hw, decide_false, Bool.false_eq_true, if_false]
      rfl
    rw [hact]
    exact runs_stable x y hxy (herr y hxy)

theorem runs_storeHelp {j : T} {v : Version}
    (hk : ∀ help, Runs t (f ()) Q C E { x with help := help }) :
    Runs t (lift (.storeHelp t j v) >>= f) Q C E x :=
  runs_own hC (fun _ hxy => ⟨_, rfl, hxy.help_update⟩) hc (hk _)

theorem runs_help {w : Word T γ} (hk : ∀ help, Runs t (f ()) Q C E { x with help := help }) :
    Runs t (Detectable.help t w >>= f) Q C E x := by
  unfold Detectable.help
  split
  · exact hk x.help
  · exact runs_storeHelp hC hc hk

end Accesses

/-! ### Programs of which only the records matter -/

section Logs

variable [DecidableEq T] [DecidableEq B] {α β : Type} {P : HeapState B → Prop}

/-- The record of the thread is one that an access logged. -/
theorem log_of_by {act : Access T B β} {b : β} (hact : act.By t { log := P })
    (hx : ∀ r ∈ x.log t, P r) (h : handle t β act x = .ok (b, y)) : ∀ r ∈ y.log t, P r := by
  rw [handle] at h
  split at h
  · rename_i b' m hm
    obtain ⟨rfl, rfl⟩ := ok_inj h
    have hlog : (x.advance t m act b').log t = act.logged t (x.log t) := by
      rw [← (Mem.logged_handle hm t).1]
      cases act with
      | casWord o old new => cases b' <;> rfl
      | _ => rfl
    rw [hlog]
    cases act with
    | storeLog u r =>
      rw [Act.logged]
      split
      · exact hact.2
      · exact hx
    | _ => exact hx
  · cases h

theorem runs_of_by {p : HeapCode T B α} (hp : p.Only (Act.By t { log := P }))
    (hx : ∀ r ∈ x.log t, P r) :
    Runs t p (fun _ _ => True) (fun y => ∀ r ∈ y.log t, P r) (fun _ => True) x := by
  refine wpc_mono (wpc_of_only hp (fun x y hxy h => hxy.log.symm ▸ h) ?_ hx)
    (fun _ _ h => h)
    (fun _ _ _ => trivial) (fun _ h => h) (fun _ h => h)
  exact fun β act x b y hact hx h => log_of_by hact hx h

end Logs

/-! ### Small programs -/

section Programs

variable [DecidableEq T] [DecidableEq B] {α : Type} {s : StackId T B}
  {Q : α → Tracked T B → Prop} {C : Tracked T B → Prop} {E : Panic → Prop}
  {f : Unit → HeapCode T B α}

theorem runs_set (hC : Stable (Leaves t) C) {v : Option (Index B)} {n : ℕ} (hc : C x)
    (hc₁ : C { x with head := update x.head s v })
    (hk : Runs t (f ()) Q C E { x with head := update x.head s v, len := update x.len s n }) :
    Runs t (Stack.set s v n >>= f) Q C E x := by
  simp only [Stack.set, bind_assoc]
  exact runs_storeHead hC hc (runs_storeLen hC hc₁ hk)

theorem runs_push (hC : Stable (Leaves t) C) (hs : s.thread = t) (hi : i ∈ x.mine) (hc : C x)
    (hc₁ : C { x with next := update x.next i (x.head s) })
    (hc₂ : C { x with next := update x.next i (x.head s), head := update x.head s (some i) })
    (hk : Runs t (f ()) Q C E { x with
      next := update x.next i (x.head s)
      head := update x.head s (some i)
      len := update x.len s (x.len s + 1) }) :
    Runs t (Stack.push s i >>= f) Q C E x := by
  simp only [Stack.push, bind_assoc]
  exact runs_loadHead hC hc hs (runs_storeNext hC hc hi (runs_storeHead hC hc₁
    (runs_loadLen hC hc₂ hs (runs_storeLen hC hc₂ hk))))

theorem runs_storeRemote (hC : Stable (Leaves t) C) {a : Remote} (hi : i ∈ x.mine)
    (hc : ∀ help, C { x with help := help })
    (hk : ∀ help, Runs t (f ()) Q C E { x with
      help := help
      remote := update x.remote i { id := some t, version := 0, inner := a } }) :
    Runs t (Detectable.store t (.remote i) a >>= f) Q C E x := by
  simp only [Detectable.store, bind_assoc]
  exact runs_loadWord hC (hc x.help) fun _ _ => runs_help hC (hc x.help) fun help =>
    runs_storeCounter hC (hc help) hi (hk help)

theorem runs_validateOwned (hC : Stable (Leaves t) C) {cfg : Config} (hc : C x)
    (hvalid : cfg.validate = true → ∀ y, Leaves t x y → y.toHeap.isValid t = true)
    (hk : Runs t (f ()) Q C E x) : Runs t (Heap.validateOwned cfg t >>= f) Q C E x := by
  unfold Heap.validateOwned
  split
  · rename_i hv
    refine runs_own hC (fun y hxy => ⟨y, ?_, hxy⟩) hc hk
    simp only [handle, Mem.handle, hvalid hv y hxy, if_true]
    rfl
  · exact hk

/-- `trace(..).count()` of a list of the thread. -/
theorem runs_count (hC : Stable (Leaves t) C) {f : ℕ → HeapCode T B α} {fuel : ℕ}
    {h : Option (Index B)} {xs : List (Index B)} (hseg : Seg x.next h xs none)
    (hmine : ∀ i ∈ xs, i ∈ x.mine) (hfuel : xs.length < fuel) (hc : C x)
    (hk : Runs t (f xs.length) Q C E x) : Runs t (Stack.count fuel h >>= f) Q C E x := by
  induction fuel generalizing h xs f with
  | zero => omega
  | succ fuel ih =>
    cases xs with
    | nil =>
      obtain rfl : h = none := hseg
      exact hk
    | cons i xs =>
      obtain ⟨rfl, hseg⟩ := hseg
      simp only [Stack.count, bind_assoc]
      refine runs_loadNext hC hc (hmine i (by simp)) ?_
      refine ih hseg (fun j hj => hmine j (by simp [hj])) ?_ hk
      rw [List.length_cons] at hfuel
      omega

theorem runs_recoverLen (hC : Stable (Leaves t) C) {xs : List (Index B)} (hs : s.thread = t)
    (hseg : Seg x.next (x.head s) xs none) (hmine : ∀ i ∈ xs, i ∈ x.mine)
    (hfuel : xs.length < walkFuel) (hc : C x)
    (hk : Runs t (f ()) Q C E { x with len := update x.len s xs.length }) :
    Runs t (Stack.recoverLen s >>= f) Q C E x := by
  simp only [Stack.recoverLen, bind_assoc]
  exact runs_loadHead hC hc hs (runs_count hC hseg hmine hfuel hc (runs_storeLen hC hc hk))

/-- With an empty unsized stack there is nothing to move. -/
theorem runs_unsizedToSized_nil (hC : Stable (Leaves t) C) {c : B}
    {g : Bool → HeapCode T B α} (hc : C x) (hhead : x.head (.unsized t) = none)
    (hk : Runs t (g false) Q C E x) : Runs t (Heap.unsizedToSized t c >>= g) Q C E x := by
  unfold Heap.unsizedToSized Stack.peek
  rw [bind_assoc]
  refine runs_loadHead hC hc rfl ?_
  rw [hhead]
  exact hk

/-- With a slab on the unsized stack the next record is written.  From then on all records
are of kind `P`. -/
theorem runs_carve {P : HeapState B → Prop} {c : B} {g : Bool → HeapCode T B α}
    (hC : Stable (Leaves t) C)
    (hP : ∀ i : Option (Index B), P (FromState.fromState (.unsizedToSized i c)))
    (hlogs : ∀ y, (∀ r ∈ y.log t, P r) → C y) (hc : C x) (hg : Built t { log := P } (g true))
    (hi : i ∈ x.mine) (hhead : x.head (.unsized t) = some i) :
    Runs t (Heap.unsizedToSized t c >>= g) (fun _ _ => True) C (fun _ => True) x := by
  have hlater := (Heap.by_unsizedToSized (t := t) (r := { log := P }) trivial trivial hP).only
    trivial
  unfold Heap.unsizedToSized Stack.peek
  rw [bind_assoc]
  refine runs_loadHead hC hc rfl ?_
  rw [hhead]
  dsimp only
  rw [bind_assoc]
  refine runs_loadNext hC hc hi ?_
  rw [bind_assoc]
  refine runs_log hC hc (wpc_mono (runs_of_by (P := P) (.bind_of_yields (W := (· = true)) ?_ ?_ ?_)
    ?_) (fun _ _ h => h) (fun _ _ _ => trivial) hlogs (fun _ h => h))
  · exact ((hlater.2 (some i)).2 (x.next i)).2 ()
  · exact .bind fun _ => .bind fun _ => .bind fun _ => .bind fun _ => .bind fun _ => .bind fun _ =>
      .bind fun _ => .bind fun _ => rfl
  · rintro b rfl
    exact hg.only trivial
  · intro r hr
    have hr : update x.log t (some (.unsizedToSized (x.next i) c)) t = some r := hr
    rw [update_self] at hr
    obtain rfl := Option.some.inj hr
    exact hP _

/-- The slab ends up on top of the unsized stack, and the stack is counted. -/
theorem runs_recoverPush {L : Option B → List (Index B)} (hi : i ∈ x.mine)
    (htop : x.head (.unsized t) = some i → x.Stacks t L)
    (hfree : x.head (.unsized t) ≠ some i → Stacks t { x with
      next := update x.next i (x.head (.unsized t))
      head := update x.head (.unsized t) (some i) } L)
    (hk : ∀ next head, (∀ j, j ≠ i → next j = x.next j) →
      let y := { x with
        next := next, head := head, len := update x.len (.unsized t) (L none).length }
      y.Stacks t L → Runs t (f ()) Q (fun _ => True) E y) :
    Runs t (Stack.recoverPush (.unsized t) i >>= f) Q (fun _ => True) E x := by
  have hC : Stable (Leaves t) fun _ : Tracked T B => True := fun _ _ _ _ => trivial
  -- However the slab got there, the chain from the head is counted.
  have hcount : ∀ next head len, (∀ j, j ≠ i → next j = x.next j) →
      update len (.unsized t) (L none).length = update x.len (.unsized t) (L none).length →
      let y := { x with next := next, head := head, len := len }
      y.Stacks t L → Runs t (Stack.recoverLen (.unsized t) >>= f) Q (fun _ => True) E y := by
    intro next head len hnext hlen y hy
    refine runs_recoverLen hC rfl (hy.chains.seg none) (hy.mine none) (hy.length_lt none) trivial ?_
    have hk := hk next head hnext ⟨hy.chains, hy.mine, hy.below⟩
    rw [← hlen] at hk
    exact hk
  unfold Stack.recoverPush
  rw [bind_assoc]
  refine runs_loadHead hC trivial rfl ?_
  split
  · rename_i hne
    rw [bind_assoc]
    have hst := hfree hne
    refine runs_push hC rfl hi trivial trivial trivial (hcount _ _ _ ?_ ?_ ?_)
    · exact fun j hj => update_of_ne hj _ _
    · exact update_idem ..
    · exact ⟨hst.chains, hst.mine, hst.below⟩
  · rename_i heq
    exact hcount x.next x.head x.len (fun _ _ => rfl) rfl (htop (not_not.mp heq))

/-- Recovery goes by the record it finds. -/
theorem runs_recover [Fintype T] {cfg : Config} {r : HeapState B} (e : Others T B t)
    (hC : ∀ y, e.acts x y → C y) (hlog : x.log t = some r) {Q : Unit → Tracked T B → Prop}
    (hr : wpc (handle t) e.acts (Heap.recoverHeap cfg t r) Q C E x) :
    wpc (handle t) e.acts (Heap.recover cfg t) Q C E x := by
  refine wpc_access fun y hxy => ⟨hC y hxy, ?_⟩
  have hload : handle t _ (.loadLog t) y = .ok (some r, y) := by
    rw [← hlog, ← (e.leaves x y hxy).log]
    rfl
  rw [hload]
  exact wpc_stable e.trans x y hxy hr

end Programs

/-! ### Counting -/

section Counting

variable [DecidableEq T] [DecidableEq B] {z : Tracked T B}

/-- What counting a stack does not write. -/
structure Same (z w : Tracked T B) : Prop where
  next : w.next = z.next
  mine : w.mine = z.mine
  theirs : w.theirs = z.theirs
  global : w.global = z.global

/-- The accesses of `recover_len`. -/
def Recounts (β : Type) : Access T B β → Prop
  | .loadHead _ => True
  | .loadNext _ => True
  | .storeLen _ _ => True
  | .panic _ => True
  | _ => False

omit [DecidableEq T] [DecidableEq B] in
theorem recounts_count {n : ℕ} {v : Option (Index B)} :
    (Stack.count n v : HeapCode T B ℕ).Only Recounts := by
  induction n generalizing v with
  | zero => exact ⟨trivial, fun b => b.elim⟩
  | succ n ih =>
    cases v with
    | none => exact .pure _
    | some i => exact .bind (.lift trivial) fun _ => .bind ih fun _ => .pure _

theorem same_of_recounts {β : Type} {act : Access T B β} {b : β}
    (hact : Recounts β act) (h : handle t β act x = .ok (b, y)) : Same x y ∧ y.head = x.head := by
  cases act with
  | loadHead s =>
    obtain ⟨-, rfl⟩ := ok_inj h
    exact ⟨⟨rfl, rfl, rfl, rfl⟩, rfl⟩
  | loadNext i =>
    obtain ⟨-, rfl⟩ := ok_inj h
    exact ⟨⟨rfl, rfl, rfl, rfl⟩, rfl⟩
  | storeLen s n =>
    obtain ⟨-, rfl⟩ := ok_inj h
    exact ⟨⟨rfl, rfl, rfl, rfl⟩, rfl⟩
  | panic e => cases h
  | _ => exact hact.elim

theorem wp_of_recounts {α : Type} {p : HeapCode T B α} (hp : p.Only Recounts) :
    wp (handle t) p (fun _ w => Same z w ∧ w.head = z.head) (fun _ => True) z := by
  refine wpc_wp (R := Eq) (C := fun w => Same z w ∧ w.head = z.head) (fun _ => rfl)
    (wpc_of_only hp (fun _ _ heq h => heq ▸ h) ?_ ⟨⟨rfl, rfl, rfl, rfl⟩, rfl⟩)
  rintro β act x b y hact ⟨hx, hhead⟩ h
  obtain ⟨hy, hhead'⟩ := same_of_recounts hact h
  exact ⟨⟨hy.next.trans hx.next, hy.mine.trans hx.mine, hy.theirs.trans hx.theirs,
    hy.global.trans hx.global⟩, hhead'.trans hhead⟩

/-- Recovery reads the record of the thread first. -/
theorem wp_recover_log [Fintype T] {cfg : Config} {Q : Unit → Tracked T B → Prop} {E : Panic → Prop} :
    wp (handle t) (Heap.recover cfg t) Q E z ↔
      wp (handle t) (match z.log t with
        | none => pure ()
        | some state => Heap.recoverHeap cfg t state) Q E z := Iff.rfl

end Counting

/-! ### Detection -/

section Detection

variable [DecidableEq T] [DecidableEq B] [Fintype T] {α γ : Type}

/-- The accesses of `detect`. -/
def Looks (β : Type) : Access T B β → Prop
  | .loadHelp _ _ => True
  | .loadWord _ => True
  | .scanHelp _ => True
  | .panic _ => True
  | _ => False

omit [DecidableEq B] in
theorem looks_detect {o : Obj B γ} {v : Version} :
    (Detectable.detect t o v : HeapCode T B Bool).Only Looks := by
  refine .bind (.lift trivial) fun _ => .ite ⟨trivial, fun b => b.elim⟩ ?_
  exact .bind (.lift trivial) fun _ => .ite (.pure _) (.lift trivial)

omit [Fintype T] in
theorem eq_of_looks {β : Type} {act : Access T B β} {b : β} (hact : Looks β act)
    (h : handle t β act x = .ok (b, y)) : y = x := by
  cases act with
  | loadHelp u v =>
    obtain ⟨-, rfl⟩ := ok_inj h
    rfl
  | loadWord o =>
    obtain ⟨-, rfl⟩ := ok_inj h
    rfl
  | scanHelp p =>
    obtain ⟨-, rfl⟩ := ok_inj h
    rfl
  | panic e => cases h
  | _ => exact hact.elim

/-- Recovery goes on with the answer of `detect`, in a memory the others left. -/
theorem wpc_recover_detect (e : Others T B t) {o : Obj B γ} {v : Version} {r : HeapState B}
    {E : Panic → Prop} {Q : Unit → Tracked T B → Prop} {f : Bool → HeapCode T B Unit}
    (hlog : x.log t = some r) (hd : e.Detects o v x)
    (hr : Heap.recoverHeap cfg t r = Detectable.detect t o v >>= f)
    (hf : ∀ took y, x.cas = some took → e.acts x y → Runs t (f took) Q (fun _ => True) E y) :
    wpc (handle t) e.acts (Heap.recover cfg t) Q (fun _ => True) E x := by
  refine runs_recover e (fun _ _ => trivial) hlog (hr ▸ (wpc_bind e.refl e.trans).mpr ?_)
  refine wpc_mono (wpc_reads looks_detect (fun β act x b y => eq_of_looks) e.trans hd)
    (fun _ _ h => h) ?_ (fun _ _ => trivial) (fun _ h => h.elim)
  rintro took y ⟨hcas, hy⟩
  exact wpc_mono (hf took y hcas hy) e.leaves (fun _ _ h => h) (fun _ h => h) (fun _ h => h)

/-- Nobody disturbs: the answer comes from the memory as it is. -/
theorem wp_detect (e : Others T B t) {o : Obj B γ} {v : Version} (hd : e.Detects o v x) :
    wp (handle t) (Detectable.detect t o v) (fun took y => x.cas = some took ∧ y = x)
      (fun _ => False) x := by
  obtain ⟨took, y, hx, hcas⟩ := wp_returns (wpc_wp e.refl hd)
  exact wp_of_exec hx ⟨hcas, looks_detect.exec (f := id) (fun β act x b y => eq_of_looks) hx⟩

/-- With the other threads standing still, one answer is all answers. -/
theorem detects_idle {o : Obj B γ} {v : Version} {took : Bool}
    (hd : (Detectable.detect t o v).exec (handle t) x = .ok (took, y)) (hcas : x.cas = some took) :
    (Others.idle t).Detects o v x :=
  wpc_of_wp (wp_of_exec hd hcas)

end Detection

end Tracked

end Cxlalloc
