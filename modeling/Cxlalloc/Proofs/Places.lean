/-
Where every slab is, and what that says about its record.

A `Ledger` is the abstract state of one heap: which slabs each chain holds, in order,
which blocks of each slab are live, and by how much each recorded stack length
exceeds the chain.  `Inv` says that a heap represents a ledger.  It is the one
invariant the results about completed calls are read off: the four places of a slab
(global stack, unsized stack, sized stack, detached) each fix its owner, its class,
its bitset and its live blocks.

`Inv.stepOn` is how it is kept: the chains by one of the surgeries of `Lib.Chains`,
every slab that did not move by framing, and the slabs that moved by the constructor
of their new place.
-/
import Cxlalloc.Lib.Chain
import Cxlalloc.Proofs.Data
import Cxlalloc.Heap

namespace Cxlalloc

open Lib
open Cxlalloc.Bracket
open Function

/-- A chain of the heap: the global stack, or a stack of one thread. -/
abbrev Loc (T B : Type) := Option (StackId T B)

/-- The abstract state of one heap. -/
structure Ledger (T B : Type) where
  chain : Loc T B → List (Index B)
  live : Index B → Finset ℕ
  excess : StackId T B → ℕ

variable {T B : Type} [Bracket B]

namespace Heap

/-- The heads of all chains. -/
def headsOf (global : Option (Index B)) (head : StackId T B → Option (Index B)) :
    Loc T B → Option (Index B)
  | none => global
  | some s => head s

/-- The heads of all chains of a heap. -/
def heads (h : Heap T B) : Loc T B → Option (Index B) :=
  headsOf h.global.inner h.head

/-- The first slab that was never handed out. -/
def bumpIndex (h : Heap T B) : ℕ :=
  (h.bump.inner.getD .min).value

section

variable [DecidableEq T] [DecidableEq B] {hd : StackId T B → Option (Index B)}

omit [Bracket B] in
theorem headsOf_head {g v : Option (Index B)}
    {s : StackId T B} : headsOf g (update hd s v) = update (headsOf g hd) (some s) v := by
  funext l
  cases l with
  | none => simp [headsOf]
  | some s' =>
    by_cases hs : s' = s
    · subst hs; simp [headsOf]
    · simp [headsOf, hs]

omit [Bracket B] in
theorem headsOf_global {g v : Option (Index B)} : headsOf v hd = update (headsOf g hd) none v := by
  funext l
  cases l with
  | none => simp [headsOf]
  | some s' => simp [headsOf]

end

end Heap

/-- A slab that is carved into blocks: each block is free, live, or was freed
remotely, and the remote counter counts the first two. -/
structure Busy (h : Heap T B) (live : Finset ℕ) (i : Index B) : Prop where
  isZero : isZero (h.sizeClass i) = false
  validate : (h.bits i).validate = true
  disjoint : Disjoint (h.bits i).elems live
  elems_lt : ∀ k ∈ (h.bits i).elems, k < count (h.sizeClass i)
  live_lt : ∀ k ∈ live, k < count (h.sizeClass i)
  counter : (h.bits i).elems.card + live.card = (h.remote i).inner.free

/-- What its place says about a slab. -/
structure SlabOk (cfg : Config) (h : Heap T B) (L : Loc T B → List (Index B))
    (live : Finset ℕ) (i : Index B) : Prop where
  global : i ∈ L none → live = ∅ ∧ (cfg.validate = true → h.owner i = none)
  unsized : ∀ t, i ∈ L (some (.unsized t)) → live = ∅ ∧ h.owner i = some t
  sized : ∀ t c, i ∈ L (some (.sized t c)) →
    Busy h live i ∧ h.owner i = some t ∧ h.sizeClass i = c ∧ (h.bits i).elems.Nonempty
  detached : i.value < h.bumpIndex → (∀ l, i ∉ L l) →
    Busy h live i ∧ (h.bits i).elems = ∅ ∧ live.Nonempty
  below : ∀ l, i ∈ L l → i.value < h.bumpIndex
  fresh : h.bumpIndex ≤ i.value → live = ∅ ∧ h.owner i = none
  last : h.owner i = none ∨ h.owner i = h.lastOwner i

/-- The heap represents the ledger. -/
structure Inv (cfg : Config) (h : Heap T B) (a : Ledger T B) : Prop where
  chains : Chains h.next h.heads a.chain
  slab : ∀ i, SlabOk cfg h a.chain (a.live i) i
  lens : ∀ s, h.len s = (a.chain (some s)).length + a.excess s
  bound : h.bumpIndex < 2 ^ 32

/-! ### Framing -/

/-- Two heaps record the same about a slab. -/
structure Agree (h h' : Heap T B) (i : Index B) : Prop where
  owner : h'.owner i = h.owner i
  lastOwner : h'.lastOwner i = h.lastOwner i
  sizeClass : h'.sizeClass i = h.sizeClass i
  bits : h'.bits i = h.bits i
  free : (h'.remote i).inner = (h.remote i).inner

variable {cfg : Config} {h h' : Heap T B} {L L' : Loc T B → List (Index B)}
  {live : Finset ℕ} {i : Index B} {t : T} {c : B} {a a' : Ledger T B}

theorem Busy.frame (hb : Busy h live i) (hag : Agree h h' i) : Busy h' live i := by
  obtain ⟨h1, h2, h3, h4, h5, h6⟩ := hb
  constructor
  · rw [hag.sizeClass]; exact h1
  · rw [hag.bits]; exact h2
  · rw [hag.bits]; exact h3
  · rw [hag.bits, hag.sizeClass]; exact h4
  · rw [hag.sizeClass]; exact h5
  · rw [hag.bits, hag.free]; exact h6

theorem SlabOk.frame (ok : SlabOk cfg h L live i) (hag : Agree h h' i)
    (hL : ∀ l, i ∈ L' l ↔ i ∈ L l) (hb : i.value < h'.bumpIndex ↔ i.value < h.bumpIndex) :
    SlabOk cfg h' L' live i where
  global hi := by rw [hag.owner]; exact ok.global ((hL _).mp hi)
  unsized t hi := by rw [hag.owner]; exact ok.unsized t ((hL _).mp hi)
  sized t c hi := by
    rw [hag.owner, hag.sizeClass, hag.bits]
    obtain ⟨hbusy, hrest⟩ := ok.sized t c ((hL _).mp hi)
    exact ⟨hbusy.frame hag, hrest⟩
  detached hlt hout := by
    rw [hag.bits]
    obtain ⟨hbusy, hrest⟩ := ok.detached (hb.mp hlt) fun l hi => hout l ((hL l).mpr hi)
    exact ⟨hbusy.frame hag, hrest⟩
  below l hi := hb.mpr (ok.below l ((hL l).mp hi))
  fresh hge := by
    rw [hag.owner]
    exact ok.fresh (by omega)
  last := by rw [hag.owner, hag.lastOwner]; exact ok.last

/-! ### One slab in one place -/

section Places

variable (hlast : h.owner i = none ∨ h.owner i = h.lastOwner i) (hb : i.value < h.bumpIndex)
include hlast hb

theorem SlabOk.of_global (hL : ∀ l, i ∈ L l ↔ l = none) (hlive : live = ∅)
    (ho : cfg.validate = true → h.owner i = none) : SlabOk cfg h L live i where
  global _ := ⟨hlive, ho⟩
  unsized t hi := absurd ((hL _).mp hi) (by simp)
  sized t c hi := absurd ((hL _).mp hi) (by simp)
  detached _ hout := absurd ((hL none).mpr rfl) (hout none)
  below _ _ := hb
  fresh hge := absurd hb (by omega)
  last := hlast

theorem SlabOk.of_unsized (hL : ∀ l, i ∈ L l ↔ l = some (.unsized t)) (hlive : live = ∅)
    (ho : h.owner i = some t) : SlabOk cfg h L live i where
  global hi := absurd ((hL _).mp hi) (by simp)
  unsized t' hi := by
    obtain rfl : t' = t := by simpa using (hL _).mp hi
    exact ⟨hlive, ho⟩
  sized t c hi := absurd ((hL _).mp hi) (by simp)
  detached _ hout := absurd ((hL _).mpr rfl) (hout _)
  below _ _ := hb
  fresh hge := absurd hb (by omega)
  last := hlast

theorem SlabOk.of_sized (hL : ∀ l, i ∈ L l ↔ l = some (.sized t c)) (hbusy : Busy h live i)
    (ho : h.owner i = some t) (hc : h.sizeClass i = c) (hne : (h.bits i).elems.Nonempty) :
    SlabOk cfg h L live i where
  global hi := absurd ((hL _).mp hi) (by simp)
  unsized t hi := absurd ((hL _).mp hi) (by simp)
  sized t' c' hi := by
    obtain ⟨rfl, rfl⟩ : t' = t ∧ c' = c := by simpa using (hL _).mp hi
    exact ⟨hbusy, ho, hc, hne⟩
  detached _ hout := absurd ((hL _).mpr rfl) (hout _)
  below _ _ := hb
  fresh hge := absurd hb (by omega)
  last := hlast

theorem SlabOk.of_detached (hL : ∀ l, i ∉ L l) (hbusy : Busy h live i)
    (hempty : (h.bits i).elems = ∅) (hne : live.Nonempty) : SlabOk cfg h L live i where
  global hi := absurd hi (hL _)
  unsized t hi := absurd hi (hL _)
  sized t c hi := absurd hi (hL _)
  detached _ _ := ⟨hbusy, hempty, hne⟩
  below l hi := absurd hi (hL l)
  fresh hge := absurd hb (by omega)
  last := hlast

end Places

/-! ### What the invariant says -/

namespace Inv

theorem mem_iff (inv : Inv cfg h a) {l : Loc T B} (hi : i ∈ a.chain l) (l' : Loc T B) :
    i ∈ a.chain l' ↔ l' = l :=
  ⟨fun hi' => inv.chains.disjoint l' l i hi' hi, fun e => e ▸ hi⟩

theorem below (inv : Inv cfg h a) {l : Loc T B} (hi : i ∈ a.chain l) : i.value < h.bumpIndex :=
  (inv.slab i).below l hi

theorem head_eq (inv : Inv cfg h a) (s : StackId T B) : h.head s = (a.chain (some s)).head? :=
  inv.chains.head_eq (some s)

theorem cons_eq (inv : Inv cfg h a) {s : StackId T B} (hh : h.head s = some i) :
    ∃ xs, a.chain (some s) = i :: xs :=
  inv.chains.cons_eq (k := some s) hh

/-- A chain is shorter than there are indices. -/
theorem length_lt (inv : Inv cfg h a) (l : Loc T B) : (a.chain l).length < 2 ^ 32 := by
  have hnd : ((a.chain l).map Index.value).Nodup :=
    (inv.chains.nodup l).map fun _ _ e => Index.ext e
  have hsub : (a.chain l).map Index.value ⊆ List.range h.bumpIndex := by
    intro v hv
    obtain ⟨j, hj, rfl⟩ := List.mem_map.mp hv
    exact List.mem_range.mpr (inv.below hj)
  have hlen := (List.subperm_of_subset hnd hsub).length_le
  rw [List.length_map, List.length_range] at hlen
  have := inv.bound
  omega

/-- A slab with a live block is on no free list. -/
theorem busy_of_live (inv : Inv cfg h a) {k : ℕ} (hk : k ∈ a.live i) :
    Busy h (a.live i) i ∧ i.value < h.bumpIndex ∧
      ((∃ t c, i ∈ a.chain (some (.sized t c))) ∨ ∀ l, i ∉ a.chain l) := by
  have ok := inv.slab i
  have hne : a.live i ≠ ∅ := Finset.ne_empty_of_mem hk
  have hb : i.value < h.bumpIndex := by
    by_contra hge
    exact hne (ok.fresh (by omega)).1
  by_cases hout : ∀ l, i ∉ a.chain l
  · exact ⟨(ok.detached hb hout).1, hb, .inr hout⟩
  · push Not at hout
    obtain ⟨l, hi⟩ := hout
    match l, hi with
    | none, hi => exact absurd (ok.global hi).1 hne
    | some (.unsized t), hi => exact absurd (ok.unsized t hi).1 hne
    | some (.sized t c), hi => exact ⟨(ok.sized t c hi).1, hb, .inl ⟨t, c, hi⟩⟩

/-- The new heap represents the new ledger if its chains and lengths do, each slab that
moved is as its new place wants it, and no other slab was touched. -/
theorem stepOn (inv : Inv cfg h a) (P : Index B → Prop) (hch : Chains h'.next h'.heads a'.chain)
    (hframe : ∀ j, ¬ P j → Agree h h' j ∧ (∀ l, j ∈ a'.chain l ↔ j ∈ a.chain l) ∧
      a'.live j = a.live j ∧ (j.value < h'.bumpIndex ↔ j.value < h.bumpIndex))
    (hself : ∀ j, P j → SlabOk cfg h' a'.chain (a'.live j) j)
    (hlens : ∀ s, h'.len s = (a'.chain (some s)).length + a'.excess s)
    (hbound : h'.bumpIndex < 2 ^ 32) : Inv cfg h' a' where
  chains := hch
  slab j := by
    by_cases hj : P j
    · exact hself j hj
    · obtain ⟨hag, hL, hlive, hb⟩ := hframe j hj
      rw [hlive]
      exact (inv.slab j).frame hag hL hb
  lens := hlens
  bound := hbound

/-- The case of one slab. -/
theorem step (inv : Inv cfg h a) (i : Index B) (hch : Chains h'.next h'.heads a'.chain)
    (hframe : ∀ j, j ≠ i → Agree h h' j ∧ (∀ l, j ∈ a'.chain l ↔ j ∈ a.chain l) ∧
      a'.live j = a.live j)
    (hself : SlabOk cfg h' a'.chain (a'.live i) i)
    (hlens : ∀ s, h'.len s = (a'.chain (some s)).length + a'.excess s)
    (hbump : h'.bumpIndex = h.bumpIndex) : Inv cfg h' a' := by
  refine inv.stepOn (· = i) hch ?_ ?_ hlens (by rw [hbump]; exact inv.bound)
  · intro j hj
    obtain ⟨hag, hL, hlive⟩ := hframe j hj
    exact ⟨hag, hL, hlive, by rw [hbump]⟩
  · rintro j rfl
    exact hself

end Inv

end Cxlalloc
