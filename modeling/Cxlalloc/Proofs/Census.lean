/-
How many slabs are where, and which events account for a change of that.

`slabsAt` is the set of slabs in one of five places: on the global stack, on an unsized
stack, on a sized stack of a class, detached with an owner, detached without one.  Every
slab that was handed out is in exactly one of them.  `Accounts evs h h'` says that the
numbers differ between two heaps by what the recorder adds up for the events `evs`.  All
moves of slabs are instances of `accounts_of_moved`: some slabs go from one place (or from
nowhere) to another, and the rest stay where they are.
-/
import Cxlalloc.Proofs.Transitions
import Cxlalloc.Stat
import Mathlib.Data.Set.Card
import Mathlib.Tactic.Ring

namespace Cxlalloc

open Lib
open Cxlalloc.Bracket

variable {T B R : Type} [Bracket B]

/-- Slab `i` is on the chain at `l`, and that chain ends. -/
def Heap.OnChain (h : Heap T B) (l : Loc T B) (i : Index B) : Prop :=
  ∃ xs, Seg h.next (h.heads l) xs none ∧ i ∈ xs

theorem Inv.onChain_iff {cfg : Config} {h : Heap T B} {a : Ledger T B} (inv : Inv cfg h a)
    (l : Loc T B) (i : Index B) : h.OnChain l i ↔ i ∈ a.chain l := by
  constructor
  · rintro ⟨xs, hs, hi⟩
    rwa [hs.unique (inv.chains.seg l)] at hi
  · exact fun hi => ⟨a.chain l, inv.chains.seg l, hi⟩

/-! ### Places -/

/-- Where a slab can be. -/
inductive Place (B : Type)
  | global
  | unsized
  | sized (c : B)
  | detached (c : B)
  | disowned (c : B)
  deriving DecidableEq

/-- The counter of a place. -/
def Place.gauge : Place B → Gauge B
  | .global => .globalUnsized
  | .unsized => .localUnsized
  | .sized c => .localSized c
  | .detached c => .detached c
  | .disowned c => .disowned c

omit [Bracket B] in
theorem Place.gauge_inj {p q : Place B} : p.gauge = q.gauge ↔ p = q := by
  cases p <;> cases q <;> simp [gauge]

/-- The place of the slabs on a chain. -/
def Loc.place : Loc T B → Place B
  | none => .global
  | some (.unsized _) => .unsized
  | some (.sized _ c) => .sized c

/-- Where a detached slab is. -/
def Place.off (owner : Option T) (c : B) : Place B :=
  match owner with
  | some _ => .detached c
  | none => .disowned c

/-- Slab `i` was handed out as one of class `c`, and is on no chain. -/
def Heap.OffChain (h : Heap T B) (c : B) (i : Index B) : Prop :=
  i.value < h.bumpIndex ∧ (∀ l, ¬ h.OnChain l i) ∧ h.sizeClass i = c

/-- The slabs in a place. -/
def Heap.slabsAt (h : Heap T B) : Place B → Set (Index B)
  | .global => {i | h.OnChain none i}
  | .unsized => {i | ∃ t, h.OnChain (some (.unsized t)) i}
  | .sized c => {i | ∃ t, h.OnChain (some (.sized t c)) i}
  | .detached c => {i | h.OffChain c i ∧ h.owner i ≠ none}
  | .disowned c => {i | h.OffChain c i ∧ h.owner i = none}

theorem Heap.mem_slabsAt {h : Heap T B} {p : Place B} {i : Index B} :
    i ∈ h.slabsAt p ↔ (∃ l, Loc.place l = p ∧ h.OnChain l i) ∨
      i.value < h.bumpIndex ∧ (∀ l, ¬ h.OnChain l i) ∧ Place.off (h.owner i) (h.sizeClass i) = p := by
  have hoff : ∀ o : Option T, ∀ c : B, Place.off o c ≠ .global ∧ Place.off o c ≠ .unsized ∧
      ∀ c', Place.off o c ≠ .sized c' := by
    intro o c
    cases o <;> simp [Place.off]
  cases p with
  | global =>
    simp only [slabsAt, Set.mem_ofPred_eq, (hoff _ _).1, and_false, or_false]
    constructor
    · exact fun hi => ⟨none, rfl, hi⟩
    · rintro ⟨_ | _ | _, hl, hi⟩
      · exact hi
      · cases hl
      · cases hl
  | unsized =>
    simp only [slabsAt, Set.mem_ofPred_eq, (hoff _ _).2.1, and_false, or_false]
    constructor
    · exact fun ⟨t, hi⟩ => ⟨some (.unsized t), rfl, hi⟩
    · rintro ⟨_ | _ | _, hl, hi⟩
      · cases hl
      · exact ⟨_, hi⟩
      · cases hl
  | sized c =>
    simp only [slabsAt, Set.mem_ofPred_eq, (hoff _ _).2.2, and_false, or_false]
    constructor
    · exact fun ⟨t, hi⟩ => ⟨some (.sized t c), rfl, hi⟩
    · rintro ⟨_ | _ | _, hl, hi⟩
      · cases hl
      · cases hl
      · cases hl
        exact ⟨_, hi⟩
  | detached c =>
    have hon : ¬ ∃ l : Loc T B, Loc.place l = .detached c ∧ h.OnChain l i := by
      rintro ⟨_ | _ | _, hl, -⟩ <;> cases hl
    simp only [slabsAt, OffChain, Set.mem_ofPred_eq, hon, false_or]
    cases h.owner i <;> simp [Place.off]
  | disowned c =>
    have hon : ¬ ∃ l : Loc T B, Loc.place l = .disowned c ∧ h.OnChain l i := by
      rintro ⟨_ | _ | _, hl, -⟩ <;> cases hl
    simp only [slabsAt, OffChain, Set.mem_ofPred_eq, hon, false_or]
    cases h.owner i <;> simp [Place.off]

namespace Inv

variable {cfg : Config} {h h' : Heap T B} {a a' : Ledger T B} {p q : Place B} {i : Index B}

theorem mem_slabsAt (inv : Inv cfg h a) :
    i ∈ h.slabsAt p ↔ (∃ l, Loc.place l = p ∧ i ∈ a.chain l) ∨
      i.value < h.bumpIndex ∧ (∀ l, i ∉ a.chain l) ∧ Place.off (h.owner i) (h.sizeClass i) = p := by
  simp only [Heap.mem_slabsAt, inv.onChain_iff]

theorem slabsAt_chain (inv : Inv cfg h a) {l : Loc T B} (hi : i ∈ a.chain l) :
    i ∈ h.slabsAt l.place :=
  inv.mem_slabsAt.mpr (.inl ⟨l, rfl, hi⟩)

theorem slabsAt_off (inv : Inv cfg h a) (hb : i.value < h.bumpIndex) (hout : ∀ l, i ∉ a.chain l) :
    i ∈ h.slabsAt (Place.off (h.owner i) (h.sizeClass i)) :=
  inv.mem_slabsAt.mpr (.inr ⟨hb, hout, rfl⟩)

/-- A slab is in one place only. -/
theorem place_unique (inv : Inv cfg h a) (hp : i ∈ h.slabsAt p) (hq : i ∈ h.slabsAt q) : p = q := by
  rw [inv.mem_slabsAt] at hp hq
  rcases hp with ⟨l, rfl, hl⟩ | ⟨-, hout, rfl⟩
  · rcases hq with ⟨l', rfl, hl'⟩ | ⟨-, hout, -⟩
    · rw [inv.chains.disjoint l l' i hl hl']
    · exact absurd hl (hout l)
  · rcases hq with ⟨l', rfl, hl'⟩ | ⟨-, -, rfl⟩
    · exact absurd hl' (hout l')
    · rfl

theorem slabsAt_below (inv : Inv cfg h a) (hp : i ∈ h.slabsAt p) : i.value < h.bumpIndex := by
  rcases inv.mem_slabsAt.mp hp with ⟨l, -, hl⟩ | ⟨hb, -⟩
  · exact inv.below hl
  · exact hb

theorem slabsAt_finite (inv : Inv cfg h a) : (h.slabsAt p).Finite := by
  have hfin : (Set.preimage Index.value (Set.Iio h.bumpIndex) : Set (Index B)).Finite :=
    (Set.finite_Iio h.bumpIndex).preimage fun _ _ _ _ hij => Index.ext hij
  exact hfin.subset fun i hi => inv.slabsAt_below hi

/-- A slab about which nothing changed is where it was. -/
theorem slabsAt_congr (inv : Inv cfg h a) (inv' : Inv cfg h' a')
    (hmem : ∀ l, i ∈ a'.chain l ↔ i ∈ a.chain l)
    (hb : i.value < h'.bumpIndex ↔ i.value < h.bumpIndex) (ho : h'.owner i = h.owner i)
    (hc : h'.sizeClass i = h.sizeClass i) (p : Place B) : i ∈ h'.slabsAt p ↔ i ∈ h.slabsAt p := by
  rw [inv.mem_slabsAt, inv'.mem_slabsAt, hb, ho, hc]
  simp only [hmem]

end Inv

/-! ### Events -/

variable [DecidableEq B]

/-- What the recorder adds to a counter for an event. -/
def Event.delta (cfg : Config) (e : Event B) (g : Gauge B) : ℤ :=
  g.sum ((e.updates cfg).getD [])

/-- Where the slab goes that an event stands for. -/
def Event.move : Event B → Option (Place B × Place B)
  | .globalToUnsized => some (.global, .unsized)
  | .unsizedToSized c => some (.unsized, .sized c)
  | .sizedToUnsized c => some (.sized c, .unsized)
  | .detach c => some (.sized c, .detached c)
  | .disown c => some (.detached c, .disowned c)
  | .attach c => some (.detached c, .sized c)
  | .claim c => some (.disowned c, .unsized)
  | .bump | .unsizedToGlobal | .allocate _ | .free _ => none

namespace Event

variable {cfg : Config} {e : Event B} {p q r : Place B}

omit [DecidableEq B] in
theorem updates_of_move (he : e.move = some (p, q)) :
    e.updates cfg = some [(p.gauge, -(sizeSlab B : ℤ)), (q.gauge, (sizeSlab B : ℤ))] := by
  cases e with
  | bump | unsizedToGlobal | allocate _ | free _ => cases he
  | _ =>
    obtain ⟨rfl, rfl⟩ := Prod.mk.inj (Option.some.inj he)
    rfl

theorem delta_of_move (he : e.move = some (p, q)) :
    e.delta cfg r.gauge =
      (if r = q then (sizeSlab B : ℤ) else 0) - if r = p then (sizeSlab B : ℤ) else 0 := by
  rw [delta, updates_of_move he]
  simp only [Option.getD_some, Gauge.sum, List.map_cons, List.map_nil, List.sum_cons, List.sum_nil,
    Place.gauge_inj, eq_comm (a := p), eq_comm (a := q)]
  split_ifs <;> ring

theorem delta_allocate {size : ℕ} : (.allocate size : Event B).delta cfg r.gauge = 0 := by
  rw [delta, updates]
  cases (new size : Option B) <;> cases r <;> simp [Place.gauge, Gauge.sum]

theorem delta_free {size : ℕ} : (.free size : Event B).delta cfg r.gauge = 0 := by
  rw [delta, updates]
  cases (new size : Option B) <;> cases r <;> simp [Place.gauge, Gauge.sum]

theorem delta_bump : (.bump : Event B).delta cfg r.gauge =
    if r = .unsized then (sizeSlab B : ℤ) * cfg.batchBump else 0 := by
  cases r <;> simp [delta, updates, Place.gauge, Gauge.sum]

theorem delta_unsizedToGlobal : (.unsizedToGlobal : Event B).delta cfg r.gauge =
    (if r = .global then (sizeSlab B : ℤ) * cfg.batchGlobal else 0) -
      if r = .unsized then (sizeSlab B : ℤ) * cfg.batchGlobal else 0 := by
  cases r <;> simp [delta, updates, Place.gauge, Gauge.sum]

end Event

/-- The events account for the difference between two heaps. -/
def Accounts (cfg : Config) (evs : List (T × Event B)) (h h' : Heap T B) : Prop :=
  ∀ p : Place B, (sizeSlab B : ℤ) * (h'.slabsAt p).ncard =
    sizeSlab B * (h.slabsAt p).ncard + (evs.map fun e => e.2.delta cfg p.gauge).sum

namespace Accounts

variable {cfg : Config} {evs evs' : List (T × Event B)} {h h' h'' : Heap T B} {t : T}

theorem trans (h₁ : Accounts cfg evs h h') (h₂ : Accounts cfg evs' h' h'') :
    Accounts cfg (evs ++ evs') h h'' := by
  intro p
  rw [h₂ p, h₁ p, List.map_append, List.sum_append, add_assoc]

/-- An event that is about blocks, not slabs. -/
theorem cons {e : Event B} (he : ∀ p : Place B, e.delta cfg p.gauge = 0)
    (hacc : Accounts cfg evs h h') : Accounts cfg ((t, e) :: evs) h h' := by
  intro p
  rw [hacc p, List.map_cons, List.sum_cons, he p, zero_add]

/-- Nothing happened. -/
theorem nil (hsame : ∀ p, h'.slabsAt p = h.slabsAt p) : Accounts cfg ([] : List (T × Event B)) h h' := by
  intro p
  rw [hsame p, List.map_nil, List.sum_nil, add_zero]

end Accounts

/-! ### Moves -/

/-- The slabs of `K` went from `p`, or from nowhere, to `q`; the others stayed. -/
structure Moved (h h' : Heap T B) (K : Set (Index B)) (p : Option (Place B)) (q : Place B) :
    Prop where
  source : ∀ i ∈ K, ∀ r, i ∈ h.slabsAt r ↔ p = some r
  target : ∀ i ∈ K, ∀ r, i ∈ h'.slabsAt r ↔ r = q
  rest : ∀ i ∉ K, ∀ r, i ∈ h'.slabsAt r ↔ i ∈ h.slabsAt r

theorem ncard_of_nodup {α : Type} [DecidableEq α] {xs : List α} (hnd : xs.Nodup) :
    {x | x ∈ xs}.ncard = xs.length := by
  rw [← List.toFinset_card_of_nodup hnd, ← Set.ncard_coe_finset, List.coe_toFinset]

section

variable {cfg : Config} {h h' : Heap T B} {a a' : Ledger T B} {K : Set (Index B)}
  {p : Option (Place B)} {q : Place B} {evs : List (T × Event B)}

omit [DecidableEq B] [Bracket B] in
theorem ncard_inter_of_iff {A : Set (Index B)} {c : Prop} [Decidable c]
    (hA : ∀ i ∈ K, i ∈ A ↔ c) : (A ∩ K).ncard = if c then K.ncard else 0 := by
  by_cases hc : c
  · rw [if_pos hc, Set.inter_eq_self_of_subset_right fun i hi => (hA i hi).mpr hc]
  · have hempty : A ∩ K = ∅ :=
      Set.eq_empty_iff_forall_notMem.mpr fun i hi => hc ((hA i hi.2).mp hi.1)
    rw [if_neg hc, hempty, Set.ncard_empty]

theorem Moved.ncard (hm : Moved h h' K p q) (inv : Inv cfg h a) (inv' : Inv cfg h' a')
    (r : Place B) : (h'.slabsAt r).ncard + (if p = some r then K.ncard else 0) =
      (h.slabsAt r).ncard + if r = q then K.ncard else 0 := by
  have hsplit := Set.ncard_inter_add_ncard_sdiff_eq_ncard (h.slabsAt r) K inv.slabsAt_finite
  have hsplit' := Set.ncard_inter_add_ncard_sdiff_eq_ncard (h'.slabsAt r) K inv'.slabsAt_finite
  have hrest : h'.slabsAt r \ K = h.slabsAt r \ K := by
    ext i
    simp only [Set.mem_sdiff]
    exact and_congr_left fun hi => hm.rest i hi r
  rw [ncard_inter_of_iff fun i hi => hm.source i hi r] at hsplit
  rw [ncard_inter_of_iff fun i hi => hm.target i hi r, hrest] at hsplit'
  omega

theorem accounts_of_moved (hm : Moved h h' K p q) (inv : Inv cfg h a) (inv' : Inv cfg h' a')
    (hdelta : ∀ r : Place B, (evs.map fun e => e.2.delta cfg r.gauge).sum =
      (if r = q then (sizeSlab B : ℤ) * K.ncard else 0) -
        if p = some r then (sizeSlab B : ℤ) * K.ncard else 0) :
    Accounts cfg evs h h' := by
  intro r
  have hcount := hm.ncard inv inv' r
  have hscale : ∀ (c : Prop) [Decidable c], (if c then (sizeSlab B : ℤ) * K.ncard else 0) =
      sizeSlab B * ((if c then K.ncard else 0 : ℕ) : ℤ) := fun c _ => by split_ifs <;> simp
  rw [hdelta r, hscale, hscale]
  generalize (if p = some r then K.ncard else 0) = x at hcount ⊢
  generalize (if r = q then K.ncard else 0) = y at hcount ⊢
  have hnew : ((h'.slabsAt r).ncard : ℤ) = (h.slabsAt r).ncard + y - x := by omega
  rw [hnew]
  ring

end

namespace Inv

variable [DecidableEq T] {cfg : Config} {h h' : Heap T B} {a a' : Ledger T B} {p q : Place B}
  {i : Index B} {t : T} {e : Event B} {evs : List (T × Event B)} {l l' : Loc T B}

omit [DecidableEq T] in
/-- One slab moved. -/
theorem accounts_single (inv : Inv cfg h a) (inv' : Inv cfg h' a') (hp : i ∈ h.slabsAt p)
    (hq : i ∈ h'.slabsAt q) (hmem : ∀ j ≠ i, ∀ l, j ∈ a'.chain l ↔ j ∈ a.chain l)
    (hb : h'.bumpIndex = h.bumpIndex) (ho : ∀ j ≠ i, h'.owner j = h.owner j)
    (hc : ∀ j ≠ i, h'.sizeClass j = h.sizeClass j)
    (hdelta : ∀ r : Place B, (evs.map fun e => e.2.delta cfg r.gauge).sum =
      (if r = q then (sizeSlab B : ℤ) else 0) - if r = p then (sizeSlab B : ℤ) else 0) :
    Accounts cfg evs h h' := by
  refine accounts_of_moved (K := {i}) (p := some p) (q := q) ⟨?_, ?_, ?_⟩ inv inv' ?_
  · rintro j rfl r
    exact ⟨fun hr => congrArg some (inv.place_unique hp hr), fun e => Option.some.inj e ▸ hp⟩
  · rintro j rfl r
    exact ⟨fun hr => inv'.place_unique hr hq, fun e => e ▸ hq⟩
  · intro j hj
    exact inv.slabsAt_congr inv' (hmem j hj) (by rw [hb]) (ho j hj) (hc j hj)
  · intro r
    rw [hdelta r, Set.ncard_singleton, Nat.cast_one, mul_one]
    simp only [Option.some.injEq, eq_comm (a := p)]

omit [DecidableEq T] in
theorem sum_of_move (he : e.move = some (p, q)) (r : Place B) :
    ([(t, e)].map fun e => e.2.delta cfg r.gauge).sum =
      (if r = q then (sizeSlab B : ℤ) else 0) - if r = p then (sizeSlab B : ℤ) else 0 := by
  rw [List.map_singleton, List.sum_singleton, Event.delta_of_move he]

/-- From one chain to another. -/
theorem accounts_move (inv : Inv cfg h a) (hi : i ∈ a.chain l) (hl : l ≠ l')
    (inv' : Inv cfg h' a') (hchain : a'.chain = (a.move i l l').chain)
    (hb : h'.bumpIndex = h.bumpIndex) (ho : ∀ j ≠ i, h'.owner j = h.owner j)
    (hc : ∀ j ≠ i, h'.sizeClass j = h.sizeClass j) (he : e.move = some (l.place, l'.place)) :
    Accounts cfg [(t, e)] h h' := by
  refine inv.accounts_single inv' (inv.slabsAt_chain hi) (inv'.slabsAt_chain (l := l') ?_) ?_ hb ho
    hc (sum_of_move he)
  · rw [hchain]
    exact (inv.mem_move_self hi hl l').mpr rfl
  · intro j hj l₁
    rw [hchain]
    exact inv.mem_move_of_ne hi hl hj l₁

/-- Off a chain. -/
theorem accounts_drop (inv : Inv cfg h a) (hi : i ∈ a.chain l) (inv' : Inv cfg h' a')
    (hchain : a'.chain = (a.drop i l).chain) (hb : h'.bumpIndex = h.bumpIndex)
    (ho : ∀ j ≠ i, h'.owner j = h.owner j) (hc : ∀ j ≠ i, h'.sizeClass j = h.sizeClass j)
    (hdelta : ∀ r : Place B, (evs.map fun e => e.2.delta cfg r.gauge).sum =
      (if r = Place.off (h'.owner i) (h'.sizeClass i) then (sizeSlab B : ℤ) else 0) -
        if r = l.place then (sizeSlab B : ℤ) else 0) :
    Accounts cfg evs h h' := by
  refine inv.accounts_single inv' (inv.slabsAt_chain hi) (inv'.slabsAt_off ?_ ?_) ?_ hb ho hc hdelta
  · rw [hb]
    exact inv.below hi
  · intro l₁
    rw [hchain]
    exact inv.mem_drop_self hi l₁
  · intro j hj l₁
    rw [hchain]
    exact inv.mem_drop_of_ne hi hj l₁

/-- Back on a chain. -/
theorem accounts_push (inv : Inv cfg h a) (hi : i.value < h.bumpIndex)
    (hout : ∀ l, i ∉ a.chain l) (inv' : Inv cfg h' a')
    (hchain : a'.chain = (a.push i l).chain) (hb : h'.bumpIndex = h.bumpIndex)
    (ho : ∀ j ≠ i, h'.owner j = h.owner j) (hc : ∀ j ≠ i, h'.sizeClass j = h.sizeClass j)
    (he : e.move = some (Place.off (h.owner i) (h.sizeClass i), l.place)) :
    Accounts cfg [(t, e)] h h' := by
  refine inv.accounts_single inv' (inv.slabsAt_off hi hout) (inv'.slabsAt_chain (l := l) ?_) ?_ hb ho
    hc (sum_of_move he)
  · rw [hchain]
    exact (mem_push_self hout l).mpr rfl
  · intro j hj l₁
    rw [hchain]
    exact mem_push_of_ne hj l₁

/-- New slabs. -/
theorem accounts_grow {n len : ℕ} (inv : Inv cfg h a) (hempty : a.chain (some (.unsized t)) = [])
    (hi : i.value = h.bumpIndex) (inv' : Inv cfg h' (a.grow t i n len))
    (hb : h'.bumpIndex = i.value + n) (ho : ∀ j, j ∉ i.run n → h'.owner j = h.owner j)
    (hc : h'.sizeClass = h.sizeClass) (hbatch : cfg.batchBump = n) :
    Accounts cfg [(t, .bump)] h h' := by
  have hnd : (i.run n).Nodup := by simpa [Ledger.grow] using inv'.chains.nodup (some (.unsized t))
  have hnew : ∀ j ∈ i.run n, ∀ r, j ∉ h.slabsAt r := by
    intro j hj r hr
    have := inv.slabsAt_below hr
    have := Index.mem_run.mp hj
    omega
  refine accounts_of_moved (K := {j | j ∈ i.run n}) (p := none) (q := .unsized) ⟨?_, ?_, ?_⟩ inv
    inv' ?_
  · intro j hj r
    exact ⟨fun hr => absurd hr (hnew j hj r), fun e => by cases e⟩
  · intro j hj r
    have hmem : j ∈ h'.slabsAt .unsized :=
      inv'.slabsAt_chain (l := some (.unsized t)) (by simpa [Ledger.grow] using hj)
    exact ⟨fun hr => inv'.place_unique hr hmem, fun e => e ▸ hmem⟩
  · intro j hj
    refine inv.slabsAt_congr inv' (fun l => mem_grow hempty hj) ?_ (ho j hj) (by rw [hc])
    have := mt Index.mem_run.mpr hj
    rw [hb]
    omega
  · intro r
    rw [List.map_singleton, List.sum_singleton, Event.delta_bump,
      ncard_of_nodup hnd, Index.length_run, hbatch]
    simp

/-- A batch for the global stack. -/
theorem accounts_share {taken post : List (Index B)} {len : ℕ} (inv : Inv cfg h a)
    (hl : a.chain (some (.unsized t)) = taken ++ post)
    (inv' : Inv cfg h' (a.share t taken post len)) (hb : h'.bumpIndex = h.bumpIndex)
    (ho : ∀ j, j ∉ taken → h'.owner j = h.owner j) (hc : h'.sizeClass = h.sizeClass)
    (hbatch : cfg.batchGlobal = taken.length) : Accounts cfg [(t, .unsizedToGlobal)] h h' := by
  have hnd : taken.Nodup := by
    have := inv.chains.nodup (some (.unsized t))
    rw [hl] at this
    exact (List.nodup_append.mp this).1
  refine accounts_of_moved (K := {j | j ∈ taken}) (p := some .unsized) (q := .global) ⟨?_, ?_, ?_⟩ inv
    inv' ?_
  · intro j hj r
    have hmem : j ∈ h.slabsAt .unsized :=
      inv.slabsAt_chain (l := some (.unsized t)) (by rw [hl]; exact List.mem_append_left _ hj)
    exact ⟨fun hr => congrArg some (inv.place_unique hmem hr), fun e => Option.some.inj e ▸ hmem⟩
  · intro j hj r
    have hmem : j ∈ h'.slabsAt .global :=
      inv'.slabsAt_chain (l := none) ((inv.mem_share hl).mpr (.inr ⟨hj, rfl⟩))
    exact ⟨fun hr => inv'.place_unique hr hmem, fun e => e ▸ hmem⟩
  · intro j hj
    refine inv.slabsAt_congr inv' (fun l => ?_) (by rw [hb]) (ho j hj) (by rw [hc])
    rw [inv.mem_share hl]
    have hj' : j ∉ taken := hj
    simp [hj']
  · intro r
    rw [List.map_singleton, List.sum_singleton, Event.delta_unsizedToGlobal, ncard_of_nodup hnd,
      hbatch]
    simp only [Option.some.injEq, eq_comm (a := Place.unsized)]

end Inv

end Cxlalloc
