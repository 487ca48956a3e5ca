/-
Recovery from a crash between two stacks of one thread.

`unsized_to_sized` moves the top of the unsized stack to a sized one.  Both stacks are
threaded through the one link of the slab, so between the store of the link and the last
store of the transition the slab is on both chains, or on none that is whole.  The record
names the successor of the slab only, and recovery takes an unsized stack that is not yet
at the successor for a finished push.  So it repairs exactly the crashes in which the
chains are whole: before the link is stored, and after the last store (`Settled`).

Lengths that were wrong before stay so, with one exception: recovery counts the unsized
stack if the slab was not moved.
-/
import Cxlalloc.Proofs.Crash
import Cxlalloc.Proofs.Session

namespace Cxlalloc

open Lib
open Lib.Prog
open Cxlalloc.Bracket
open Function
open Relation

namespace Tracked

variable {T B : Type} [Bracket B] {t : T} {c : B} {x y z : Tracked T B}
  {L L' : Option B → List (Index B)} {i j : Index B} {rest : List (Index B)}

/-! ### What is true of the slab -/

/-- The slab is carved into blocks of class `c`, all of them free. -/
structure Carved (c : B) (x : Tracked T B) (i : Index B) : Prop where
  sizeClass : x.sizeClass i = c
  full : x.Full i
  counter : (x.remote i).inner.free = count c

theorem Carved.leaves (h : x.Carved c i) (hi : i ∈ x.mine) (hxy : Leaves t x y) :
    y.Carved c i where
  sizeClass := (hxy.sizeClass i hi).trans h.sizeClass
  full := (hxy.full hi).mpr h.full
  counter := by rw [hxy.counter i hi h.full]; exact h.counter

/-- The stacks of the thread are `L`, and their recorded lengths too large by `ex`.  Its slabs
are those of `x`, and all but `i` that were carved still are. -/
structure Keeps (t : T) (c : B) (i : Index B) (L : Option B → List (Index B)) (ex : Option B → ℕ)
    (x y : Tracked T B) : Prop where
  chains : y.Stacks t L
  lens : ∀ k, y.len (.of t k) = (L k).length + ex k
  mine : y.mine = x.mine
  apart : y.Apart
  carved : ∀ j ∈ x.mine, j ≠ i → x.Carved c j → y.Carved c j

variable {ex ex' : Option B → ℕ}

theorem Keeps.leaves (h : Keeps t c i L ex x y) (hyz : Leaves t y z) : Keeps t c i L ex x z where
  chains := h.chains.leaves hyz
  lens k := (hyz.len _ StackId.thread_of).trans (h.lens k)
  mine := hyz.mine.trans h.mine
  apart := hyz.apart h.apart
  carved j hj hne hcarved := (h.carved j hj hne hcarved).leaves (h.mine ▸ hj) hyz

/-- A write to the record of `i`, or to none. -/
theorem Keeps.write (h : Keeps t c i L ex x y) (hnext : z.next = y.next) (hhead : z.head = y.head)
    (hlen : z.len = y.len) (hmine : z.mine = y.mine) (hapart : z.Apart)
    (hslab : ∀ j, j ≠ i → z.sizeClass j = y.sizeClass j ∧ z.bits j = y.bits j ∧
      z.remote j = y.remote j) : Keeps t c i L ex x z where
  chains := by
    obtain ⟨hchains, hm, hbelow⟩ := h.chains
    rw [← hnext, ← hhead] at hchains
    exact ⟨hchains, hmine ▸ hm, hbelow⟩
  lens k := by rw [hlen]; exact h.lens k
  mine := hmine.trans h.mine
  apart := hapart
  carved j hj hne hcarved := by
    obtain ⟨hclass, hfull, hcounter⟩ := h.carved j hj hne hcarved
    obtain ⟨hc, hb, hr⟩ := hslab j hne
    refine ⟨hc.trans hclass, ?_, by rw [hr]; exact hcounter⟩
    unfold Full
    rw [hb, hc]
    exact hfull

/-- Where the transition may be stopped: before the link of the slab is stored, after it, with
the slab on top of both stacks, and once the unsized stack has moved on.  Then its length
may still have to follow. -/
inductive Stopped [DecidableEq B] (t : T) (c : B) (i : Index B) (rest : List (Index B))
    (L : Option B → List (Index B)) (ex : Option B → ℕ) (x z : Tracked T B) : Prop
  | unmoved (hz : Keeps t c i L ex x z)
  | linked (hi : i ∈ z.mine) (hhead : z.head (.unsized t) = some i)
      (hnext : z.next i = z.head (.sized t c)) (hne : z.next i ≠ rest.head?)
      (hlen : z.len (.unsized t) = rest.length + 1 + ex none)
  | both (hi : i ∈ z.mine) (hhead : z.head (.unsized t) = some i)
      (htop : z.head (.sized t c) = some i) (hlen : z.len (.unsized t) = rest.length + 1 + ex none)
  | moved {ex' : Option B → ℕ} (hz : Keeps t c i (Chains.move L i none (some c)) ex' x z)
      (hcarved : z.Carved c i) (hsized : ∀ c, ex' (some c) = ex (some c))
      (hunsized : ex' none = ex none ∨ ex' none = ex none + 1)

theorem Keeps.mem_moved [DecidableEq B] (h : Keeps t c i (Chains.move L i none (some c)) ex x z) :
    i ∈ z.mine :=
  h.chains.mine (some c) i (by rw [Chains.move, update_self]; exact List.mem_cons_self)

theorem stopped_stable [DecidableEq B] : Stable (Leaves t) (Stopped t c i rest L ex x) := by
  intro y z hyz h
  cases h with
  | unmoved hy => exact .unmoved (hy.leaves hyz)
  | linked hi hhead hnext hne hlen =>
    refine .linked (hyz.mine ▸ hi) ((hyz.head _ rfl).trans hhead) ?_ ?_
      ((hyz.len _ rfl).trans hlen)
    · rw [hyz.next i hi, hyz.head (.sized t c) rfl, hnext]
    · rwa [hyz.next i hi]
  | both hi hhead htop hlen =>
    exact .both (hyz.mine ▸ hi) ((hyz.head _ rfl).trans hhead) ((hyz.head _ rfl).trans htop)
      ((hyz.len _ rfl).trans hlen)
  | moved hy hcarved hsized hunsized =>
    exact .moved (hy.leaves hyz) (hcarved.leaves hy.mem_moved hyz) hsized hunsized

/-! ### The transition -/

section

variable [DecidableEq T] [DecidableEq B]

/-- The memory after the last store, with `len` as the length of the unsized stack. -/
def moved (t : T) (c : B) (i : Index B) (rest : List (Index B)) (len : ℕ)
    (help : T → T → Version) (y : Tracked T B) : Tracked T B :=
  { y with
    next := update y.next i (y.head (.sized t c))
    head := update (update y.head (.sized t c) (some i)) (.unsized t) rest.head?
    len := update (update y.len (.sized t c) (y.len (.sized t c) + 1)) (.unsized t) len
    help := help
    remote := update y.remote i { id := some t, version := 0, inner := ⟨count c⟩ } }

variable {help : T → T → Version} {n : ℕ}

theorem Stacks.moved (hL : L none = i :: rest) (hy : y.Stacks t L) :
    (y.moved t c i rest n help).Stacks t (Chains.move L i none (some c)) := by
  have hmem : i ∈ L none := by simp [hL]
  constructor
  · have hmove := hy.chains.move_head hL (Option.some_ne_none c).symm
    rw [hy.chains.next_head hL, update_comm (by simp), ← heads_update, ← heads_update] at hmove
    exact hmove
  · intro k j hj
    rcases (hy.chains.mem_move hmem (by simp)).mp hj with ⟨hj, -⟩ | ⟨rfl, -⟩
    · exact hy.mine k j hj
    · exact hy.mine none j hmem
  · intro k j hj
    rcases (hy.chains.mem_move hmem (by simp)).mp hj with ⟨hj, -⟩ | ⟨rfl, -⟩
    · exact hy.below k j hj
    · exact hy.below none j hmem

theorem lens_moved (hL : L none = i :: rest) (hy : ∀ k, y.len (.of t k) = (L k).length + ex k)
    (hn : n = rest.length + ex' none) (hsized : ∀ c, ex' (some c) = ex (some c))
    (k : Option B) : (y.moved t c i rest n help).len (.of t k) =
      (Chains.move L i none (some c) k).length + ex' k := by
  show update (update y.len _ _) (.of t none) _ (.of t k) = _
  cases k with
  | none =>
    rw [update_self, Chains.move, update_of_ne (by simp), Chains.drop, update_self, hL,
      List.erase_cons_head, hn]
  | some c' =>
    rw [update_of_ne (by simp), hsized]
    show update y.len (.of t (some c)) (y.len (.of t (some c)) + 1) _ = _
    by_cases heq : c' = c
    · rw [heq, update_self, hy, Chains.move, update_self, List.length_cons]
      omega
    · rw [update_of_ne (by simpa using heq), hy, Chains.move, update_of_ne (by simpa using heq),
        Chains.drop, update_of_ne (by simp)]

theorem Keeps.moved (hL : L none = i :: rest) (hy : Keeps t c i L ex x y)
    (hn : n = rest.length + ex' none) (hsized : ∀ c, ex' (some c) = ex (some c)) :
    Keeps t c i (Chains.move L i none (some c)) ex' x (y.moved t c i rest n help) where
  chains := hy.chains.moved hL
  lens := lens_moved hL hy.lens hn hsized
  mine := hy.mine
  apart := by
    have hmine : i ∈ y.mine := hy.chains.mine none i (by simp [hL])
    exact hy.apart.congr rfl rfl rfl fun j hj =>
      update_of_ne (fun heq : j = i => hj (heq ▸ hmine)) _ _
  carved j hj hne hcarved := by
    obtain ⟨hclass, hfull, hcounter⟩ := hy.carved j hj hne hcarved
    refine ⟨hclass, hfull, ?_⟩
    show (update y.remote i _ j).inner.free = _
    rw [update_of_ne hne, hcounter]

theorem carved_moved (hclass : y.sizeClass i = c) (hfull : y.Full i) :
    (y.moved t c i rest n help).Carved c i := by
  refine ⟨hclass, hfull, ?_⟩
  show (update y.remote i _ i).inner.free = _
  rw [update_self]

/-- The slab is carved, and on top of the unsized stack.  What is left is to move it. -/
theorem runs_move (hL : L none = i :: rest) (hy : Keeps t c i L ex x y)
    (hclass : y.sizeClass i = c) (hfull : y.Full i) :
    Runs t (do
        Stack.push (.sized t c) i
        Detectable.store t (.remote i) ⟨count c⟩
        let count ← lift (.loadLen (.unsized t))
        Stack.set (.unsized t) rest.head? (← checkedSub count 1)
        pure true)
      (fun b z => b = true ∧ Keeps t c i (Chains.move L i none (some c)) ex x z ∧ z.Carved c i)
      (Stopped t c i rest L ex x) (fun _ => False) y := by
  have hmine : i ∈ y.mine := hy.chains.mine none i (by simp [hL])
  have hhead : y.head (.unsized t) = some i :=
    (hy.chains.chains.head_eq none).trans (by rw [hL]; rfl)
  have hlen : y.len (.unsized t) = rest.length + 1 + ex none :=
    (hy.lens none).trans (by rw [hL]; rfl)
  have hlink : y.next i = rest.head? := hy.chains.chains.next_head hL
  have hC : Stable (Leaves t) (Stopped t c i rest L ex x) := stopped_stable
  -- Once the slab is on top of the sized stack it is on both until the unsized stack moves on.
  have hmid : ∀ z : Tracked T B, z.mine = y.mine → z.head (.unsized t) = some i →
      z.head (.sized t c) = some i → z.len (.unsized t) = rest.length + 1 + ex none →
      Stopped t c i rest L ex x z :=
    fun z hz hhead htop hlen => .both (hz ▸ hmine) hhead htop hlen
  have hhead₁ : update y.head (.sized t c) (some i) (.unsized t) = some i := by
    rw [update_of_ne (by simp), hhead]
  refine runs_push hC rfl hmine (.unmoved hy) ?_ (hmid _ rfl hhead₁ (update_self ..) hlen) ?_
  · -- The link is stored, and may be what it was.
    by_cases hsame : y.head (.sized t c) = rest.head?
    · rw [hsame, ← hlink, update_eq_self]
      exact .unmoved hy
    · refine .linked hmine hhead (update_self ..) ?_ hlen
      show update y.next i _ i ≠ _
      rwa [update_self]
  have hlen₁ : update y.len (.sized t c) (y.len (.sized t c) + 1) (.unsized t) =
      rest.length + 1 + ex none := by
    rw [update_of_ne (by simp), hlen]
  refine runs_storeRemote hC hmine (fun _ => ?_) fun help => runs_loadLen hC ?_ rfl ?_
  · exact hmid _ rfl hhead₁ (update_self ..) hlen₁
  · exact hmid _ rfl hhead₁ (update_self ..) hlen₁
  dsimp only
  rw [hlen₁, checkedSub, if_pos (by omega), pure_bind]
  have hcarved : ∀ n, (y.moved t c i rest n help).Carved c i := fun _ => carved_moved hclass hfull
  refine runs_set hC (hmid _ rfl hhead₁ (update_self ..) hlen₁) ?_ ?_
  · -- The unsized stack has moved on, and its length has not.
    have hlate : Keeps t c i _ (update ex none (ex none + 1)) x
        (y.moved t c i rest (rest.length + 1 + ex none) help) :=
      hy.moved hL (by rw [update_self]; omega) fun c => update_of_ne (by simp) _ _
    rw [← hlen₁] at hlate
    unfold Tracked.moved at hlate
    rw [update_eq_self] at hlate
    refine .moved hlate ?_ (fun c => update_of_ne (by simp) _ _) (.inr (update_self ..))
    exact ⟨(hcarved 0).sizeClass, (hcarved 0).full, (hcarved 0).counter⟩
  have hkeeps : Keeps t c i _ ex x (y.moved t c i rest (rest.length + 1 + ex none - 1) help) :=
    hy.moved hL (by omega) fun _ => rfl
  refine runs_pure (fun z w hzw h => ⟨h.1, h.2.1.leaves hzw, h.2.2.leaves h.2.1.mem_moved hzw⟩) hC
    (.moved hkeeps (hcarved _) (fun _ => rfl) (.inl rfl)) ⟨rfl, hkeeps, hcarved _⟩

/-- `unsized_to_sized`, wherever it is stopped and to its end. -/
theorem runs_unsizedToSized [LawfulBracket B] (hL : L none = i :: rest)
    (hx : Keeps t c i L ex x x) :
    Runs t (Heap.unsizedToSized t c)
      (fun b z => b = true ∧ Keeps t c i (Chains.move L i none (some c)) ex x z ∧ z.Carved c i)
      (Stopped t c i rest L ex x) (fun _ => False) x := by
  have hC : Stable (Leaves t) (Stopped t c i rest L ex x) := stopped_stable
  have hi : i ∈ L none := by simp [hL]
  have hhead : x.head (.unsized t) = some i := by
    have := hx.chains.chains.head_eq none
    rw [hL] at this
    exact this
  unfold Heap.unsizedToSized Stack.peek
  refine runs_loadHead hC (.unmoved hx) rfl ?_
  rw [hhead]
  refine runs_loadNext hC (.unmoved hx) (hx.chains.mine none i hi) ?_
  rw [hx.chains.chains.next_head hL]
  refine runs_log hC (.unmoved hx) ?_
  have hlogged := hx.write (z := { x with
    log := update x.log t (some (.unsizedToSized rest.head? c)), cas := some false })
    rfl rfl rfl rfl hx.apart fun _ _ => ⟨rfl, rfl, rfl⟩
  refine runs_storeClass hC (.unmoved hlogged) fun y hy => ?_
  have hy := hlogged.leaves hy
  have hclassed := hy.write (z := { y with sizeClass := update y.sizeClass i c })
    rfl rfl rfl rfl hy.apart fun _ hne => ⟨update_of_ne hne _ _, rfl, rfl⟩
  refine runs_loadBits hC (.unmoved hclassed) (hy.chains.mine none i hi) ?_
  refine runs_storeBits hC (.unmoved hclassed) fun z hz => ?_
  have hclass : z.sizeClass i = c :=
    (hz.sizeClass i (hy.chains.mine none i hi)).trans (update_self ..)
  have hz := hclassed.leaves hz
  refine runs_move hL (hz.write rfl rfl rfl rfl hz.apart fun _ hne =>
    ⟨rfl, update_of_ne hne _ _, rfl⟩) hclass ?_
  show (update z.bits i _ i).elems = Finset.range (count (z.sizeClass i))
  rw [update_self, hclass, BitSet.elems_fill (LawfulBracket.count_le c)]

/-! ### Recovery -/

/-- The stacks are whole, with right lengths; the slab is on the unsized stack or, carved,
on the sized one; and no other slab was moved, except to the sized stack. -/
def MoveRecovered (t : T) (c : B) (i : Index B) (L : Option B → List (Index B))
    (w : Tracked T B) : Prop :=
  ∃ L', w.Stacks t L' ∧ w.Lens t L' ∧ w.Apart ∧
    (i ∈ L' none ∨ (i ∈ L' (some c) ∧ w.Carved c i)) ∧
    ∀ k, ∀ j ∈ L k, j ≠ i → j ∈ L' k ∨ j ∈ L' (some c)

omit [DecidableEq T] [DecidableEq B] in
theorem moveRecovered_stable : Stable (Leaves t) (MoveRecovered t c i L) := by
  rintro w w' hw ⟨L', hst, hlen, hap, hi, hrest⟩
  refine ⟨L', hst.leaves hw, hlen.leaves hw, hw.apart hap, ?_, hrest⟩
  rcases hi with hi | ⟨hi, hcarved⟩
  · exact .inl hi
  · exact .inr ⟨hi, hcarved.leaves (hst.mine _ i hi) hw⟩

/-- What recovery leaves of stacks that are whole: recorded lengths are too large by `ex`, and
if they are not, all is well. -/
def Settles (t : T) (c : B) (i : Index B) (L : Option B → List (Index B)) (ex : Option B → ℕ)
    (w : Tracked T B) : Prop :=
  (∃ L', w.Stacks t L' ∧ ∀ k, w.len (.of t k) = (L' k).length + ex k) ∧
    ((∀ k, ex k = 0) → MoveRecovered t c i L w)

omit [DecidableEq T] [DecidableEq B] in
theorem settles_stable : Stable (Leaves t) (Settles t c i L ex) := by
  rintro w w' hw ⟨⟨L', hst, hlen⟩, h⟩
  exact ⟨⟨L', hst.leaves hw, fun k => (hw.len _ StackId.thread_of).trans (hlen k)⟩,
    fun hex => moveRecovered_stable w w' hw (h hex)⟩

omit [DecidableEq T] [DecidableEq B] in
theorem Settles.exact_of_recovered (h : z.Settles t c i L ex) (hz : MoveRecovered t c i L z)
    (k : Option B) : ex k = 0 := by
  obtain ⟨⟨L', hst, hlen⟩, -⟩ := h
  obtain ⟨L'', hst'', hlen'', -⟩ := hz
  have hsame : L' k = L'' k := (hst.chains.seg k).unique (hst''.chains.seg k)
  have := hlen k
  rw [hlen'' k, hsame] at this
  omega

variable [Fintype T] {cfg : Config}

/-- Recovery of whole stacks does its job exactly if the lengths come out right. -/
theorem recovers_iff (e : Others T B t) {r : HeapState B} (hlog : z.log t = some r)
    (hr : Runs t (Heap.recoverHeap cfg t r) (fun _ w => w.Settles t c i L ex) (fun _ => True)
      (fun _ => False) z) :
    wpc (handle t) e.acts (Heap.recover cfg t) (fun _ w => MoveRecovered t c i L w)
      (fun _ => True) (fun _ => False) z ↔ ∀ k, ex k = 0 := by
  have hsettles : wpc (handle t) e.acts (Heap.recover cfg t) (fun _ w => w.Settles t c i L ex)
      (fun _ => True) (fun _ => False) z :=
    runs_recover e (fun _ _ => trivial) hlog
      (wpc_mono hr e.leaves (fun _ _ h => h) (fun _ h => h) fun _ h => h)
  constructor
  · intro hrecovers
    obtain ⟨_, w, hrun, hw⟩ := wp_returns (wpc_wp e.refl hrecovers)
    exact (wp_ok (wpc_wp e.refl hsettles) hrun).exact_of_recovered hw
  · exact fun hex => wpc_mono hsettles (fun _ _ h => h) (fun _ _ h => h.2 hex) (fun _ h => h)
      fun _ h => h

/-- The slab was not moved: recovery finds it on top, and counts the stack. -/
theorem runs_recover_unmoved (hL : L none = i :: rest) (hz : Keeps t c i L ex x z) :
    Runs t (Heap.recoverHeap cfg t (.unsizedToSized rest.head? c))
      (fun _ w => w.Settles t c i L (update ex none 0)) (fun _ => True) (fun _ => False) z := by
  have hC : Stable (Leaves t) fun _ : Tracked T B => True := fun _ _ _ _ => trivial
  have hchain := hz.chains.chains.seg none
  have hhead : z.head (.unsized t) = some i := by
    rw [hL] at hchain
    exact hchain.1
  have hne : some i ≠ rest.head? := by
    intro heq
    have hnd := hz.chains.chains.nodup none
    rw [hL, List.nodup_cons] at hnd
    exact hnd.1 (List.mem_of_mem_head? heq.symm)
  unfold Heap.recoverHeap Stack.peek
  refine runs_loadHead hC trivial rfl ?_
  rw [hhead, if_pos hne]
  refine runs_count hC (hhead ▸ hchain) (hz.chains.mine none) (hz.chains.length_lt none) trivial ?_
  rw [← bind_pure (Stack.set _ _ _)]
  refine runs_set hC trivial trivial (runs_pure settles_stable hC trivial ?_)
  have hst : Stacks t { z with
      head := update z.head (.unsized t) (some i)
      len := update z.len (.unsized t) (L none).length } L := by
    obtain ⟨hchains, hmine, hbelow⟩ := hz.chains
    refine ⟨?_, hmine, hbelow⟩
    rw [← hhead, update_eq_self]
    exact hchains
  have hlens : ∀ k, update z.len (.of t none) (L none).length (.of t k) =
      (L k).length + update ex none 0 k := by
    intro k
    by_cases hk : k = none
    · rw [hk, update_self, update_self, Nat.add_zero]
    · rw [update_of_ne (by simpa using hk), update_of_ne hk]
      exact hz.lens k
  refine ⟨⟨L, hst, hlens⟩, fun hex => ⟨L, hst, fun k => ?_, hz.apart, .inl (by simp [hL]),
    fun k j hj _ => .inl hj⟩⟩
  exact (hlens k).trans (by rw [hex k, Nat.add_zero])

/-- The slab was moved: recovery moves the next one, if there is one. -/
theorem runs_recover_moved [LawfulBracket B] (hL : L none = i :: rest)
    (hx : ∀ k, ∀ j ∈ L k, j ∈ L' k ∨ j = i) (hL' : L' = Chains.move L i none (some c))
    (hz : Keeps t c i L' ex x z) (hcarved : z.Carved c i) :
    Runs t (Heap.recoverHeap cfg t (.unsizedToSized rest.head? c))
      (fun _ w => w.Settles t c i L ex) (fun _ => True) (fun _ => False) z := by
  have hC : Stable (Leaves t) fun _ : Tracked T B => True := fun _ _ _ _ => trivial
  have hrest : L' none = rest := by
    rw [hL', Chains.move, update_of_ne (by simp), Chains.drop, update_self, hL,
      List.erase_cons_head]
  have hsized : i ∈ L' (some c) := by
    rw [hL', Chains.move, update_self]
    exact List.mem_cons_self
  have hhead : z.head (.unsized t) = rest.head? := hrest ▸ hz.chains.chains.head_eq none
  unfold Heap.recoverHeap Stack.peek
  refine runs_loadHead hC trivial rfl ?_
  rw [hhead, if_neg (not_not.mpr rfl)]
  cases rest with
  | nil =>
    refine runs_unsizedToSized_nil hC trivial hhead ?_
    refine runs_pure settles_stable hC trivial ⟨⟨L', hz.chains, hz.lens⟩, fun hex => ⟨L', hz.chains,
      fun k => ?_, hz.apart, .inr ⟨hsized, hcarved⟩, fun k j hj hne => ?_⟩⟩
    · rw [hz.lens k, hex k, Nat.add_zero]
    · exact .inl ((hx k j hj).resolve_right hne)
  | cons j rest =>
    have hj : j ∈ L' none := by simp [hrest]
    have hne : i ≠ j := by
      rintro rfl
      exact absurd (hz.chains.chains.disjoint _ _ i hj hsized) (by simp)
    have hkeeps : Keeps t c j L' ex z z := ⟨hz.chains, hz.lens, rfl, hz.apart, fun _ _ _ h => h⟩
    have hagain := runs_unsizedToSized hrest hkeeps
    refine runs_bind.mpr (wpc_mono hagain (fun _ _ h => h) ?_ (fun _ _ => trivial) fun _ h => h)
    rintro b w ⟨-, hw, -⟩
    have hmem := fun (k : Option B) (l : Index B) =>
      hz.chains.chains.mem_move (j := l) (l := k) hj (Option.some_ne_none c).symm
    refine runs_pure settles_stable hC trivial ⟨⟨_, hw.chains, hw.lens⟩, fun hex => ⟨_, hw.chains,
      fun k => ?_, hw.apart, .inr ⟨(hmem _ i).mpr (.inl ⟨hsized, hne⟩), ?_⟩, fun k l hl hli => ?_⟩⟩
    · rw [hw.lens k, hex k, Nat.add_zero]
    · exact hw.carved i (hz.chains.mine _ i hsized) hne hcarved
    · by_cases hlj : l = j
      · exact .inr ((hmem _ l).mpr (.inr ⟨hlj, rfl⟩))
      · exact .inl ((hmem _ l).mpr (.inl ⟨(hx k l hl).resolve_right hli, hlj⟩))

/-- With the slab still on top, recovery does not touch the links and the heads. -/
theorem wp_recover_top {v : Option (Index B)} (hlog : z.log t = some (.unsizedToSized v c))
    (hhead : z.head (.unsized t) = some i) (hne : some i ≠ v) :
    wp (handle t) (Heap.recover cfg t) (fun _ w => w.next = z.next ∧ w.head = z.head)
      (fun _ => True) z := by
  rw [wp_recover_log, hlog]
  unfold Heap.recoverHeap Stack.peek
  rw [wp_bind, wp_lift]
  show wp (handle t) (if z.head (.unsized t) ≠ v then _ else _) _ _ z
  rw [hhead, if_pos hne, wp_bind]
  refine wp_mono (wp_of_recounts recounts_count) ?_ fun _ h => h
  rintro n w ⟨hsame, hw⟩
  show w.next = z.next ∧ update w.head (.unsized t) (some i) = z.head
  exact ⟨hsame.next, by rw [hw, ← hhead, update_eq_self]⟩

/-- A slab that leads to the sized stack takes that stack along, or loses its own. -/
theorem not_recovers_linked (e : Others T B t) (hL : L none = i :: rest) (hnd : (L none).Nodup)
    (hlog : z.log t = some (.unsizedToSized rest.head? c)) (hhead : z.head (.unsized t) = some i)
    (hnext : z.next i = z.head (.sized t c)) (hne : z.next i ≠ rest.head?) :
    ¬ wpc (handle t) e.acts (Heap.recover cfg t) (fun _ w => MoveRecovered t c i L w)
      (fun _ => True) (fun _ => False) z := by
  intro hrecovers
  have hi : i ∉ rest := by
    rw [hL, List.nodup_cons] at hnd
    exact hnd.1
  obtain ⟨_, w, hrun, L', hst, -, -, -, hkept⟩ := wp_returns (wpc_wp e.refl hrecovers)
  obtain ⟨hwnext, hwhead⟩ := wp_ok (wp_recover_top hlog hhead fun h =>
    hi (List.mem_of_mem_head? h.symm)) hrun
  have hunsized := hst.chains.seg none
  have hsized := hst.chains.seg (some c)
  rw [hwnext, hwhead] at hunsized hsized
  have hunsized : Seg z.next (some i) (L' none) none := hhead ▸ hunsized
  have hsized : Seg z.next (z.head (.sized t c)) (L' (some c)) none := hsized
  cases hl : L' none with
  | nil =>
    rw [hl] at hunsized
    cases hunsized
  | cons j ys =>
    rw [hl] at hunsized
    obtain ⟨hj, hys⟩ := hunsized
    obtain rfl := Option.some.inj hj
    rw [hnext] at hys
    obtain rfl := hsized.unique hys
    cases hv : L' (some c) with
    | cons k ks =>
      have hk : k ∈ L' (some c) := by simp [hv]
      exact absurd (hst.chains.disjoint none (some c) k (by rw [hl]; simp [hk]) hk) (by simp)
    | nil =>
      rw [hv] at hsized
      have hnone : z.next i = none := hnext.trans hsized
      cases rest with
      | nil => exact hne hnone
      | cons r rest =>
        have hr : r ≠ i := by
          rintro rfl
          simp at hi
        rcases hkept none r (by simp [hL]) hr with hmem | hmem
        · rw [hl, hv, List.mem_singleton] at hmem
          exact hr hmem
        · rw [hv] at hmem
          cases hmem

/-- A slab on top of both stacks stays there. -/
theorem not_recovers_both (e : Others T B t) (hL : L none = i :: rest)
    (hnd : (L none).Nodup) (hlog : z.log t = some (.unsizedToSized rest.head? c))
    (hhead : z.head (.unsized t) = some i) (htop : z.head (.sized t c) = some i) :
    ¬ wpc (handle t) e.acts (Heap.recover cfg t) (fun _ w => MoveRecovered t c i L w)
      (fun _ => True) (fun _ => False) z := by
  intro hrecovers
  rw [hL, List.nodup_cons] at hnd
  obtain ⟨_, w, hrun, L', hst, -⟩ := wp_returns (wpc_wp e.refl hrecovers)
  obtain ⟨-, hwhead⟩ := wp_ok (wp_recover_top hlog hhead fun h =>
    hnd.1 (List.mem_of_mem_head? h.symm)) hrun
  have hmem : ∀ k, z.head (.of t k) = some i → i ∈ L' k := fun k hk =>
    List.mem_of_mem_head? ((hst.chains.head_eq k).symm.trans (by rw [hwhead]; exact hk))
  exact absurd (hst.chains.disjoint _ _ i (hmem none hhead) (hmem (some c) htop)) (by simp)

/-- The lengths of the sized stacks were right before the call, and the slab still has its link
and is not on top of the sized stack, or the recorded length of the unsized stack is one
smaller already and was right before the call. -/
def Settled (t : T) (c : B) (i : Index B) (m : Mem T B (HeapState B)) (a : Ledger T B)
    (z : Tracked T B) : Prop :=
  (∀ c, m.len (.sized t c) = (a.chain (some (.sized t c))).length) ∧
    ((z.next i = m.next i ∧ z.head (.sized t c) ≠ some i) ∨
      (z.len (.unsized t) + 1 = m.len (.unsized t) ∧
        m.len (.unsized t) = (a.chain (some (.unsized t))).length))

/-- **A crash of `unsized_to_sized` is recovered if and only if it is settled**, wherever the
thread stops after its record, and whatever the other threads do. -/
theorem unsizedToSized_recovers_iff [LawfulBracket B] (e : Others T B t)
    {m : Mem T B (HeapState B)} {a : Ledger T B} (inv : Inv cfg m.toHeap a)
    (hi : m.head (.unsized t) = some i)
    (hstop : Stops (handle t) e.acts (Heap.unsizedToSized t c) (start t m none) z)
    (hlog : z.log t = some (.unsizedToSized (m.next i) c)) :
    wpc (handle t) e.acts (Heap.recover cfg t)
      (fun _ w => MoveRecovered t c i (fun k => a.chain (some (.of t k))) w)
      (fun _ => True) (fun _ => False) z ↔ z.Settled t c i m a := by
  have hst : (start t m none).Stacks t fun k => a.chain (some (.of t k)) := stacks_start inv
  have hlens : ∀ k, m.len (.of t k) = (a.chain (some (.of t k))).length + a.excess (.of t k) :=
    fun k => inv.lens (.of t k)
  obtain ⟨rest, hL⟩ := inv.cons_eq hi
  have hnext : m.next i = rest.head? := hst.chains.next_head (k := none) hL
  have hlen : m.len (.unsized t) = rest.length + 1 + a.excess (.unsized t) :=
    (hlens none).trans (by rw [show a.chain (some (.of t none)) = i :: rest from hL]; rfl)
  have hunsized : m.len (.unsized t) = (a.chain (some (.unsized t))).length ↔
      a.excess (.unsized t) = 0 := by
    rw [hlen, hL, List.length_cons]
    omega
  have hsized : (∀ c, m.len (.sized t c) = (a.chain (some (.sized t c))).length) ↔
      ∀ c, a.excess (.sized t c) = 0 := by
    refine forall_congr' fun c => ?_
    have := hlens (some c)
    simp only [StackId.of] at this
    omega
  rw [hnext] at hlog
  rw [Settled, hnext, hunsized, hsized]
  have hkeeps : Keeps t c i (fun k => a.chain (some (.of t k))) (fun k => a.excess (.of t k))
      (start t m none) (start t m none) := ⟨hst, hlens, rfl, apart_start inv, fun _ _ _ h => h⟩
  have hstops := runs_unsizedToSized hL hkeeps
  cases wpc_stops hstops (hstop.mono e.leaves) with
  | unmoved hz =>
    have htop : z.head (.sized t c) ≠ some i := fun htop => by
      have hmem := List.mem_of_mem_head? ((hz.chains.chains.head_eq (some c)).symm.trans htop)
      have hi : i ∈ a.chain (some (.of t none)) := by
        show i ∈ a.chain (some (.unsized t))
        simp [hL]
      exact absurd (hz.chains.chains.disjoint _ _ i hi hmem) (by simp)
    rw [recovers_iff e hlog (runs_recover_unmoved
      (L := fun k => a.chain (some (.of t k))) hL hz)]
    constructor
    · intro hex
      refine ⟨fun c => ?_, .inl ⟨hz.chains.chains.next_head (k := none) hL, htop⟩⟩
      have := hex (some c)
      rwa [update_of_ne (by simp)] at this
    · rintro ⟨hex, -⟩ k
      cases k with
      | none => exact update_self ..
      | some c => rw [update_of_ne (by simp)]; exact hex c
  | linked _ hhead hlink hne hzlen =>
    refine iff_of_false (not_recovers_linked e (L := fun k => a.chain (some (.of t k))) hL
      (hst.chains.nodup none) hlog hhead hlink hne) ?_
    rintro ⟨-, ⟨heq, -⟩ | ⟨heq, -⟩⟩
    · exact hne heq
    · simp only [StackId.of] at hzlen
      omega
  | both _ hhead htop hzlen =>
    refine iff_of_false (not_recovers_both e (L := fun k => a.chain (some (.of t k))) hL
      (hst.chains.nodup none) hlog hhead htop) ?_
    rintro ⟨-, ⟨-, hne⟩ | ⟨heq, -⟩⟩
    · exact hne htop
    · simp only [StackId.of] at hzlen
      omega
  | @moved ex' hz hcarved hsized' hunsized' =>
    have hmem : i ∈ a.chain (some (.of t none)) := by
      show i ∈ a.chain (some (.unsized t))
      simp [hL]
    have htop : z.head (.sized t c) = some i := by
      refine (hz.chains.chains.head_eq (some c)).trans ?_
      rw [Chains.move, update_self]
      rfl
    have hzlen : z.len (.unsized t) = rest.length + ex' none := by
      refine (hz.lens none).trans ?_
      rw [Chains.move, update_of_ne (by simp), Chains.drop, update_self,
        show a.chain (some (.of t none)) = i :: rest from hL, List.erase_cons_head]
    rw [recovers_iff e hlog (runs_recover_moved (L := fun k => a.chain (some (.of t k))) hL
      (fun k j hj => ?_) rfl hz hcarved)]
    · simp only [StackId.of] at hsized' hunsized'
      constructor
      · intro hex
        have hnone := hex none
        exact ⟨fun c => (hsized' c).symm.trans (hex (some c)), .inr ⟨by omega, by omega⟩⟩
      · rintro ⟨hex, ⟨-, hne⟩ | ⟨hone, hzero⟩⟩ k
        · exact absurd htop hne
        · cases k with
          | none => omega
          | some c => exact (hsized' c).trans (hex c)
    · by_cases hji : j = i
      · exact .inr hji
      · exact .inl ((hst.chains.mem_move hmem (Option.some_ne_none c).symm).mpr (.inl ⟨hj, hji⟩))

end

/-! ### A crash that is settled, and one that is not -/

/-- Three slabs for a bump, and room for them all. -/
def threeSlabs : Config :=
  { Config.initial false with batchBump := 3, cacheLocal := 4 }

/-- Thread 0 of `s` stops after `n` accesses of the transition to class 7. -/
def stopped (s : Running (Fin 1) Large (HeapState Large)) (n : ℕ) : Tracked (Fin 1) Large :=
  stopAt (handle 0) n (Heap.unsizedToSized 0 ⟨7⟩) (start 0 s.mem none)

/-- After one allocation of class 8 slabs 2 and 3 are on the unsized stack.  The thread
stops after the last store, and recovery moves slab 3 as well. -/
theorem unsizedToSized_recovers_moved :
    ∃ (s : Running (Fin 1) Large (HeapState Large)) (a : Ledger (Fin 1) Large),
    (stopped s 16).head (.unsized 0) = some (Index.min.succ.succ) ∧
    ∀ e : Others (Fin 1) Large 0,
      wpc (handle 0) e.acts (Heap.recover threeSlabs 0)
        (fun _ w => MoveRecovered 0 ⟨7⟩ (Index.succ .min) (fun k => a.chain (some (.of 0 k))) w)
        (fun _ => True) (fun _ => False) (stopped s 16) := by
  obtain ⟨s, hs, hhead, htop, hlog, hlen⟩ : ∃ s : Running (Fin 1) Large (HeapState Large),
      Running.script Session.TidyCall threeSlabs [.allocate 0 ⟨8⟩] .zeroed = some s ∧
      ((stopped s 16).head (.unsized 0) = some (Index.min.succ.succ) ∧
        s.heap.head (.unsized 0) = some (Index.succ .min) ∧
        (stopped s 16).log 0 = some (.unsizedToSized (s.heap.next (Index.succ .min)) ⟨7⟩) ∧
        (stopped s 16).len (.unsized 0) + 1 = s.heap.len (.unsized 0)) :=
    Session.exists_of_any (by decide +kernel)
  obtain ⟨a, tr, hexact⟩ := Session.exact_run (by decide) (by decide) (by decide) (by decide)
    (Running.run_of_script hs)
  have hright : (start 0 s.mem none).Lens 0 fun k => a.chain (some (.of 0 k)) :=
    lens_start tr.inv (hexact.at 0)
  refine ⟨s, a, hhead, fun e => (unsizedToSized_recovers_iff e (m := s.mem) tr.inv htop
    (stops_stopAt e.refl 16 _ _) hlog).mpr ?_⟩
  exact ⟨fun c => hright (some c), .inr ⟨hlen, hright none⟩⟩

/-- The thread stops before the unsized stack is shortened.  Recovery takes the slab to be
moved and counts the unsized stack: slab 2 is on both stacks, and slab 3 on none. -/
theorem unsizedToSized_on_both : ∃ s : Running (Fin 1) Large (HeapState Large),
    ReflTransGen (Session.TidyStep (HeapState Large) threeSlabs) Session.zeroed s.toSession ∧
    (stopped s 14).log 0 = some (.unsizedToSized (some (Index.min.succ.succ)) ⟨7⟩) ∧
    ∃ w, (Heap.recover threeSlabs 0).exec (handle 0) (stopped s 14) = .ok ((), w) ∧
      ∀ L, ¬ MoveRecovered 0 ⟨7⟩ (Index.succ .min) L w := by
  obtain ⟨s, hs, hlog, hw⟩ : ∃ s : Running (Fin 1) Large (HeapState Large),
      Running.script Session.TidyCall threeSlabs [.allocate 0 ⟨8⟩] .zeroed = some s ∧
      ((stopped s 14).log 0 = some (.unsizedToSized (some (Index.min.succ.succ)) ⟨7⟩) ∧
        ((Heap.recover threeSlabs 0).exec (handle 0) (stopped s 14)).toOption.any (fun r =>
          r.2.head (.unsized 0) = some (Index.succ .min) ∧
            r.2.head (.sized 0 ⟨7⟩) = some (Index.succ .min)) = true) :=
    Session.exists_of_any (by decide +kernel)
  obtain ⟨⟨_, w⟩, hrun, hunsized, hsized⟩ := exists_of_ok hw
  refine ⟨s, Running.run_of_script hs, hlog, w, hrun, ?_⟩
  rintro L ⟨L', hst, -⟩
  have hmem : ∀ k, w.head (.of 0 k) = some (Index.succ .min) → Index.succ .min ∈ L' k :=
    fun k hk => List.mem_of_mem_head? ((hst.chains.head_eq k).symm.trans hk)
  exact absurd (hst.chains.disjoint _ _ _ (hmem none hunsized) (hmem (some ⟨7⟩) hsized)) (by simp)

end Tracked

end Cxlalloc
