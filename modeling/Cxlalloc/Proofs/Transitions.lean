/-
The transitions of a slab.

One lemma per transition of `heap.rs`: if a heap represents a ledger, the heap the
code leaves behind represents the ledger in which the slab has moved or a block has
changed hands.  None of them mentions a program; `Proofs/Heap.lean` runs the programs
and applies them at the memory each one ends in.
-/
import Cxlalloc.Proofs.Places

namespace Cxlalloc

open Lib
open Cxlalloc.Bracket
open Function

namespace Ledger

variable {T B : Type} {a : Ledger T B} {i j : Index B} {k : ℕ} {l l' : Loc T B}
  {s : StackId T B}

/-- Block `k` of slab `i` handed out. -/
def allot (a : Ledger T B) (i : Index B) (k : ℕ) : Ledger T B :=
  { a with live := update a.live i (insert k (a.live i)) }

/-- Block `k` of slab `i` handed back. -/
def release (a : Ledger T B) (i : Index B) (k : ℕ) : Ledger T B :=
  { a with live := update a.live i ((a.live i).erase k) }

@[simp] theorem allot_live_self : (a.allot i k).live i = insert k (a.live i) := by
  simp [allot]

@[simp] theorem release_live_self : (a.release i k).live i = (a.live i).erase k := by
  simp [release]

theorem allot_live_of_ne (hj : j ≠ i) : (a.allot i k).live j = a.live j := by
  simp [allot, hj]

theorem release_live_of_ne (hj : j ≠ i) : (a.release i k).live j = a.live j := by
  simp [release, hj]

variable [DecidableEq T] [DecidableEq B]

/-- Slab `i` moved from chain `l` to the front of chain `l'`. -/
def move (a : Ledger T B) (i : Index B) (l l' : Loc T B) : Ledger T B :=
  { a with chain := Chains.move a.chain i l l' }

/-- Slab `i` taken off chain `l`. -/
def drop (a : Ledger T B) (i : Index B) (l : Loc T B) : Ledger T B :=
  { a with chain := Chains.drop a.chain i l }

/-- Slab `i` put in front of chain `l`. -/
def push (a : Ledger T B) (i : Index B) (l : Loc T B) : Ledger T B :=
  { a with chain := update a.chain l (i :: a.chain l) }

/-- The recorded length of stack `s` fell behind by one. -/
def drift (a : Ledger T B) (s : StackId T B) : Ledger T B :=
  { a with excess := update a.excess s (a.excess s + 1) }

@[simp] theorem drop_live : (a.drop i l).live = a.live := rfl
@[simp] theorem push_live : (a.push i l).live = a.live := rfl

end Ledger

variable {T B : Type} [Bracket B] [DecidableEq T] [DecidableEq B]

variable {cfg : Config} {h : Heap T B} {i : Index B} {t : T} {c : B} {a : Ledger T B}
  {xs : List (Index B)} {w : Word T (Option (Index B))} {pre post : List (Index B)}

namespace Inv

/-! ### Lengths -/

omit [Bracket B] in
private theorem length_move {L : Loc T B → List (Index B)} {s s' : StackId T B}
    {len : StackId T B → ℕ} {ex : StackId T B → ℕ} (hs : s ≠ s') (hi : i ∈ L (some s))
    (hlen : ∀ u, len u = (L (some u)).length + ex u) (u : StackId T B) :
    update (update len s' (len s' + 1)) s (len s - 1) u =
      (Chains.move L i (some s) (some s') (some u)).length + ex u := by
  have hpos := Chains.length_drop hi
  have hlens := hlen s
  have hlens' := hlen s'
  by_cases hu : u = s
  · subst hu
    rw [update_self, Chains.move, update_of_ne (by simpa using hs)]
    omega
  · by_cases hu' : u = s'
    · subst hu'
      rw [update_of_ne hu, update_self, Chains.move, update_self, List.length_cons]
      omega
    · rw [update_of_ne hu, update_of_ne hu', Chains.move, update_of_ne (by simpa using hu'),
        Chains.drop, update_of_ne (by simpa using hu)]
      exact hlen u

omit [Bracket B] in
private theorem length_push {L : Loc T B → List (Index B)} {s : StackId T B}
    {len : StackId T B → ℕ} {ex : StackId T B → ℕ}
    (hlen : ∀ u, len u = (L (some u)).length + ex u) (u : StackId T B) :
    update len s (len s + 1) u =
      (update L (some s) (i :: L (some s)) (some u)).length + ex u := by
  have hlens := hlen s
  by_cases hu : u = s
  · subst hu
    rw [update_self, update_self, List.length_cons]
    omega
  · rw [update_of_ne hu, update_of_ne (by simpa using hu)]
    exact hlen u

/-! ### Membership -/

section Membership

variable {l l' : Loc T B} {j : Index B}

theorem mem_move_self (inv : Inv cfg h a) (hi : i ∈ a.chain l) (hl : l ≠ l') (m : Loc T B) :
    i ∈ (a.move i l l').chain m ↔ m = l' := by
  have := inv.chains.mem_move hi hl (j := i) (l := m)
  simpa [Ledger.move] using this

theorem mem_move_of_ne (inv : Inv cfg h a) (hi : i ∈ a.chain l) (hl : l ≠ l') (hj : j ≠ i)
    (m : Loc T B) : j ∈ (a.move i l l').chain m ↔ j ∈ a.chain m := by
  have := inv.chains.mem_move hi hl (j := j) (l := m)
  simpa [Ledger.move, hj] using this

theorem mem_drop_self (inv : Inv cfg h a) (hi : i ∈ a.chain l) (m : Loc T B) :
    i ∉ (a.drop i l).chain m :=
  fun hm => ((inv.chains.mem_drop hi).mp hm).2 rfl

theorem mem_drop_of_ne (inv : Inv cfg h a) (hi : i ∈ a.chain l) (hj : j ≠ i) (m : Loc T B) :
    j ∈ (a.drop i l).chain m ↔ j ∈ a.chain m := by
  have := inv.chains.mem_drop hi (j := j) (l := m)
  simpa [Ledger.drop, hj] using this

omit [Bracket B] in
theorem mem_push_self (hi : ∀ m, i ∉ a.chain m) (m : Loc T B) :
    i ∈ (a.push i l).chain m ↔ m = l := by
  rw [Ledger.push, Chains.mem_push]
  simp [hi]

omit [Bracket B] in
theorem mem_push_of_ne (hj : j ≠ i) (m : Loc T B) : j ∈ (a.push i l).chain m ↔ j ∈ a.chain m := by
  rw [Ledger.push, Chains.mem_push]
  simp [hj]

end Membership

/-! ### Between stacks -/

/-- `unsized_to_sized`: the head of the unsized stack is carved into blocks. -/
theorem unsizedToSized [LawfulBracket B] (inv : Inv cfg h a) (hc : isZero c = false)
    (hl : a.chain (some (.unsized t)) = i :: xs) {w : Word T Remote} (hw : w.inner.free = count c) :
    Inv cfg
      { h with
        sizeClass := update h.sizeClass i c
        bits := update h.bits i ((h.bits i).fill (count c))
        next := update h.next i (h.head (.sized t c))
        head := update (update h.head (.sized t c) (some i)) (.unsized t) (h.next i)
        len := update (update h.len (.sized t c) (h.len (.sized t c) + 1)) (.unsized t)
          (h.len (.unsized t) - 1)
        remote := update h.remote i w }
      (a.move i (some (.unsized t)) (some (.sized t c))) := by
  have hi : i ∈ a.chain (some (.unsized t)) := by simp [hl]
  have hk : (some (.unsized t) : Loc T B) ≠ some (.sized t c) := by simp
  have hs : (.unsized t : StackId T B) ≠ .sized t c := by simp
  obtain ⟨hlive, howner⟩ := (inv.slab i).unsized t hi
  have hrows := LawfulBracket.rows_le (B := B)
  have hcount := LawfulBracket.count_le c
  have helems := BitSet.elems_fill (s := h.bits i) hcount
  refine inv.step i ?_ ?_ ?_ (length_move hs hi inv.lens) rfl
  · rw [Heap.heads, update_comm hs.symm, Heap.headsOf_head, Heap.headsOf_head]
    exact inv.chains.move_head hl hk
  · intro j hj
    exact ⟨by constructor <;> simp [hj], inv.mem_move_of_ne hi hk hj, rfl⟩
  · refine SlabOk.of_sized (t := t) (c := c) (inv.slab i).last (inv.below hi)
      (inv.mem_move_self hi hk) ?_ howner (by simp) ?_
    · show Busy _ (a.live i) i
      rw [hlive]
      constructor
      · simpa using hc
      · simpa using BitSet.validate_fill hrows hcount
      · simp
      · simp [helems]
      · simp
      · simp [helems, hw]
    · simpa [helems] using (LawfulBracket.count_pos c hc).ne'

/-- `Global::pop`, `own` and a push: a slab of the global stack becomes the thread's. -/
theorem globalToUnsized (inv : Inv cfg h a) (hl : a.chain none = i :: xs)
    (hw : w.inner = h.next i) :
    Inv cfg
      { h with
        global := w
        owner := update h.owner i (some t)
        lastOwner := update h.lastOwner i (some t)
        next := update h.next i (h.head (.unsized t))
        head := update h.head (.unsized t) (some i)
        len := update h.len (.unsized t) (h.len (.unsized t) + 1) }
      (a.move i none (some (.unsized t))) := by
  have hi : i ∈ a.chain none := by simp [hl]
  have hk : (none : Loc T B) ≠ some (.unsized t) := by simp
  obtain ⟨hlive, -⟩ := (inv.slab i).global hi
  refine inv.step i ?_ ?_ ?_ ?_ rfl
  · rw [Heap.heads, Heap.headsOf_head, hw, Heap.headsOf_global (g := h.global.inner)]
    exact inv.chains.move_head hl hk
  · intro j hj
    exact ⟨by constructor <;> simp [hj], inv.mem_move_of_ne hi hk hj, rfl⟩
  · exact SlabOk.of_unsized (t := t) (.inr (by simp)) (inv.below hi)
      (inv.mem_move_self hi hk) hlive (by simp)
  · intro u
    have hdrop : ∀ u, (Chains.drop a.chain i none) (some u) = a.chain (some u) :=
      fun u => update_of_ne (by simp) _ _
    have hlens : ∀ u, h.len u = (Chains.drop a.chain i none (some u)).length + a.excess u :=
      fun u => by rw [hdrop]; exact inv.lens u
    have hlen := length_push (i := i) (s := .unsized t) hlens u
    rw [hdrop] at hlen
    exact hlen

/-- `sized_to_unsized` of the head of its stack. -/
theorem sizedToUnsized_head (inv : Inv cfg h a) (hl : a.chain (some (.sized t c)) = i :: xs)
    (hlive : a.live i = ∅) :
    Inv cfg
      { h with
        next := update h.next i (h.head (.unsized t))
        head := update (update h.head (.sized t c) (h.next i)) (.unsized t) (some i)
        len := update (update h.len (.sized t c) (h.len (.sized t c) - 1)) (.unsized t)
          (h.len (.unsized t) + 1) }
      (a.move i (some (.sized t c)) (some (.unsized t))) := by
  have hi : i ∈ a.chain (some (.sized t c)) := by simp [hl]
  have hk : (some (.sized t c) : Loc T B) ≠ some (.unsized t) := by simp
  have hs : (.sized t c : StackId T B) ≠ .unsized t := by simp
  obtain ⟨-, howner, -⟩ := (inv.slab i).sized t c hi
  refine inv.step i ?_ ?_ ?_ ?_ rfl
  · rw [Heap.heads, Heap.headsOf_head, Heap.headsOf_head]
    exact inv.chains.move_head hl hk
  · intro j hj
    exact ⟨by constructor <;> rfl, inv.mem_move_of_ne hi hk hj, rfl⟩
  · exact SlabOk.of_unsized (t := t) (inv.slab i).last (inv.below hi) (inv.mem_move_self hi hk)
      hlive howner
  · intro u
    show update (update h.len (.sized t c) _) (.unsized t) _ u = _
    rw [update_comm hs]
    exact length_move hs hi inv.lens u

/-- `sized_to_unsized` of a slab behind another one.  The recorded length is not
brought down. -/
theorem sizedToUnsized_mid (inv : Inv cfg h a) {p : Index B}
    (hl : a.chain (some (.sized t c)) = pre ++ p :: i :: post) (hlive : a.live i = ∅) :
    Inv cfg
      { h with
        next := update (update h.next p (h.next i)) i (h.head (.unsized t))
        head := update h.head (.unsized t) (some i)
        len := update h.len (.unsized t) (h.len (.unsized t) + 1) }
      ((a.move i (some (.sized t c)) (some (.unsized t))).drift (.sized t c)) := by
  have hi : i ∈ a.chain (some (.sized t c)) := by simp [hl]
  have hk : (some (.sized t c) : Loc T B) ≠ some (.unsized t) := by simp
  have hs : (.sized t c : StackId T B) ≠ .unsized t := by simp
  obtain ⟨-, howner, -⟩ := (inv.slab i).sized t c hi
  refine inv.step i ?_ ?_ ?_ ?_ rfl
  · rw [Heap.heads, Heap.headsOf_head]
    exact inv.chains.move_mid hl hk
  · intro j hj
    exact ⟨by constructor <;> rfl, inv.mem_move_of_ne hi hk hj, rfl⟩
  · exact SlabOk.of_unsized (t := t) (inv.slab i).last (inv.below hi) (inv.mem_move_self hi hk)
      hlive howner
  · intro u
    have hmove := length_move hs hi inv.lens u
    have hpos := List.length_pos_of_mem hi
    have hlen := inv.lens (.sized t c)
    show update h.len (.unsized t) _ u =
      (Chains.move a.chain i (some (.sized t c)) (some (.unsized t)) (some u)).length +
        update a.excess (.sized t c) (a.excess (.sized t c) + 1) u
    by_cases hu : u = .sized t c
    · subst hu
      rw [update_self] at hmove ⊢
      rw [update_of_ne hs]
      omega
    · rw [update_of_ne hu] at hmove ⊢
      exact hmove

/-! ### Blocks -/

variable {live : Finset ℕ} {h' : Heap T B}

omit [DecidableEq T] [DecidableEq B] in
/-- A free block becomes live. -/
theorem busy_take {k : ℕ} (hb : Busy h live i) (hk : k ∈ (h.bits i).elems)
    (hv : (h'.bits i).validate = true) (he : (h'.bits i).elems = (h.bits i).elems.erase k)
    (hc : h'.sizeClass i = h.sizeClass i) (hr : h'.remote i = h.remote i) :
    Busy h' (insert k live) i where
  isZero := by rw [hc]; exact hb.isZero
  validate := hv
  disjoint := by
    rw [he, Finset.disjoint_insert_right]
    exact ⟨by simp, hb.disjoint.mono_left (Finset.erase_subset _ _)⟩
  elems_lt j hj := by
    rw [he] at hj
    rw [hc]
    exact hb.elems_lt j (Finset.mem_of_mem_erase hj)
  live_lt j hj := by
    rw [hc]
    rcases Finset.mem_insert.mp hj with rfl | hj
    · exact hb.elems_lt _ hk
    · exact hb.live_lt j hj
  counter := by
    have hnew : k ∉ live := Finset.disjoint_left.mp hb.disjoint hk
    have := hb.counter
    have := Finset.card_pos.mpr ⟨k, hk⟩
    rw [he, hr, Finset.card_erase_of_mem hk, Finset.card_insert_of_notMem hnew]
    omega

omit [DecidableEq T] [DecidableEq B] in
/-- A live block becomes free. -/
theorem busy_put {k : ℕ} (hb : Busy h live i) (hk : k ∈ live) (hv : (h'.bits i).validate = true)
    (he : (h'.bits i).elems = insert k (h.bits i).elems)
    (hc : h'.sizeClass i = h.sizeClass i) (hr : h'.remote i = h.remote i) :
    Busy h' (live.erase k) i where
  isZero := by rw [hc]; exact hb.isZero
  validate := hv
  disjoint := by
    rw [he, Finset.disjoint_insert_left]
    exact ⟨by simp, hb.disjoint.mono_right (Finset.erase_subset _ _)⟩
  elems_lt j hj := by
    rw [he] at hj
    rw [hc]
    rcases Finset.mem_insert.mp hj with rfl | hj
    · exact hb.live_lt _ hk
    · exact hb.elems_lt j hj
  live_lt j hj := by
    rw [hc]
    exact hb.live_lt j (Finset.mem_of_mem_erase hj)
  counter := by
    have hnew : k ∉ (h.bits i).elems := Finset.disjoint_right.mp hb.disjoint hk
    have := hb.counter
    have := Finset.card_pos.mpr ⟨k, hk⟩
    rw [he, hr, Finset.card_erase_of_mem hk, Finset.card_insert_of_notMem hnew]
    omega

omit [DecidableEq T] [DecidableEq B] in
/-- A live block is gone for good: only the counter knows. -/
theorem busy_remote {k : ℕ} (hb : Busy h live i)
    (hk : k ∈ live) (hbits : h'.bits i = h.bits i) (hc : h'.sizeClass i = h.sizeClass i)
    (hr : (h'.remote i).inner.free + 1 = (h.remote i).inner.free) :
    Busy h' (live.erase k) i where
  isZero := by rw [hc]; exact hb.isZero
  validate := by rw [hbits]; exact hb.validate
  disjoint := by
    rw [hbits]
    exact hb.disjoint.mono_right (Finset.erase_subset _ _)
  elems_lt j hj := by
    rw [hbits] at hj
    rw [hc]
    exact hb.elems_lt j hj
  live_lt j hj := by
    rw [hc]
    exact hb.live_lt j (Finset.mem_of_mem_erase hj)
  counter := by
    have := hb.counter
    have := Finset.card_pos.mpr ⟨k, hk⟩
    rw [hbits, Finset.card_erase_of_mem hk]
    omega

omit [DecidableEq T] [DecidableEq B] in
/-- `pop` of a block that is not the last free one. -/
theorem take (inv : Inv cfg h a) (hi : i ∈ a.chain (some (.sized t c)))
    {s : BitSet (rows B)} {k : ℕ} (hv : s.validate = true) (hk : k ∈ (h.bits i).elems)
    (he : s.elems = (h.bits i).elems.erase k) (hne : s.elems.Nonempty) :
    Inv cfg { h with bits := update h.bits i s } (a.allot i k) := by
  obtain ⟨hbusy, howner, hclass, -⟩ := (inv.slab i).sized t c hi
  refine inv.step i inv.chains ?_ ?_ inv.lens rfl
  · intro j hj
    exact ⟨by constructor <;> simp [hj], fun _ => Iff.rfl, Ledger.allot_live_of_ne hj⟩
  · refine SlabOk.of_sized (t := t) (c := c) (inv.slab i).last (inv.below hi) (inv.mem_iff hi) ?_
      howner hclass (by simpa using hne)
    rw [Ledger.allot_live_self]
    exact busy_take hbusy hk (by simpa using hv) (by simpa using he) rfl rfl

/-- `pop` of the last free block, and `detach`. -/
theorem takeLast (inv : Inv cfg h a) (hl : a.chain (some (.sized t c)) = i :: xs)
    {s : BitSet (rows B)} {k : ℕ} (hv : s.validate = true) (hk : k ∈ (h.bits i).elems)
    (he : s.elems = (h.bits i).elems.erase k) (hempty : s.elems = ∅) {o : Option T}
    (ho : o = none ∨ o = h.owner i) :
    Inv cfg
      { h with
        bits := update h.bits i s
        head := update h.head (.sized t c) (h.next i)
        len := update h.len (.sized t c) (h.len (.sized t c) - 1)
        owner := update h.owner i o }
      ((a.allot i k).drop i (some (.sized t c))) := by
  have hi : i ∈ a.chain (some (.sized t c)) := by simp [hl]
  obtain ⟨hbusy, howner, hclass, -⟩ := (inv.slab i).sized t c hi
  refine inv.step i ?_ ?_ ?_ ?_ rfl
  · rw [Heap.heads, Heap.headsOf_head]
    exact inv.chains.drop_head hl
  · intro j hj
    exact ⟨by constructor <;> simp [hj], inv.mem_drop_of_ne hi hj,
      Ledger.allot_live_of_ne hj⟩
  · refine SlabOk.of_detached ?_ (inv.below hi) (inv.mem_drop_self hi) ?_ (by simpa using hempty) ?_
    · rcases ho with rfl | rfl
      · exact .inl (by simp)
      · simpa using (inv.slab i).last
    · rw [Ledger.drop_live, Ledger.allot_live_self]
      exact busy_take hbusy hk (by simpa using hv) (by simpa using he) rfl rfl
    · rw [Ledger.drop_live, Ledger.allot_live_self]
      exact Finset.insert_nonempty _ _
  · intro u
    have hpos := Chains.length_drop hi
    have hlen := inv.lens (.sized t c)
    show update h.len (.sized t c) _ u =
      (Chains.drop a.chain i (some (.sized t c)) (some u)).length + a.excess u
    by_cases hu : u = .sized t c
    · subst hu
      rw [update_self]
      omega
    · rw [update_of_ne hu, Chains.drop, update_of_ne (by simpa using hu)]
      exact inv.lens u

omit [DecidableEq T] [DecidableEq B] in
/-- `free` by the owner, of a block of a slab on its sized stack. -/
theorem put (inv : Inv cfg h a) (hi : i ∈ a.chain (some (.sized t c)))
    {s : BitSet (rows B)} {k : ℕ} (hk : k ∈ a.live i) (hv : s.validate = true)
    (he : s.elems = insert k (h.bits i).elems) :
    Inv cfg { h with bits := update h.bits i s } (a.release i k) := by
  obtain ⟨hbusy, howner, hclass, -⟩ := (inv.slab i).sized t c hi
  refine inv.step i inv.chains ?_ ?_ inv.lens rfl
  · intro j hj
    exact ⟨by constructor <;> simp [hj], fun _ => Iff.rfl, Ledger.release_live_of_ne hj⟩
  · refine SlabOk.of_sized (t := t) (c := c) (inv.slab i).last (inv.below hi) (inv.mem_iff hi) ?_
      howner hclass (by simp [he])
    rw [Ledger.release_live_self]
    exact busy_put hbusy hk (by simpa using hv) (by simpa using he) rfl rfl

/-- `free` by the owner, of a block of a detached slab, and `attach`. -/
theorem putAttach (inv : Inv cfg h a) (hout : ∀ l, i ∉ a.chain l) (ho : h.owner i = some t)
    {s : BitSet (rows B)} {k : ℕ} (hk : k ∈ a.live i) (hv : s.validate = true)
    (he : s.elems = insert k (h.bits i).elems) (hc : h.sizeClass i = c) :
    Inv cfg
      { h with
        bits := update h.bits i s
        next := update h.next i (h.head (.sized t c))
        head := update h.head (.sized t c) (some i)
        len := update h.len (.sized t c) (h.len (.sized t c) + 1) }
      ((a.release i k).push i (some (.sized t c))) := by
  obtain ⟨hbusy, hb, -⟩ := inv.busy_of_live hk
  refine inv.step i ?_ ?_ ?_ (length_push inv.lens) rfl
  · rw [Heap.heads, Heap.headsOf_head]
    exact inv.chains.push (k := some (.sized t c)) hout
  · intro j hj
    exact ⟨by constructor <;> simp [hj], mem_push_of_ne hj,
      Ledger.release_live_of_ne hj⟩
  · refine SlabOk.of_sized (t := t) (c := c) (inv.slab i).last hb
      (mem_push_self (a := a.release i k) hout) ?_ ho hc
      (by simp [he])
    rw [Ledger.push_live, Ledger.release_live_self]
    exact busy_put hbusy hk (by simpa using hv) (by simpa using he) rfl rfl

omit [DecidableEq T] [DecidableEq B] in
/-- `free_remote` that leaves blocks in use. -/
theorem remoteFree (inv : Inv cfg h a) {k : ℕ} (hk : k ∈ a.live i) {w : Word T Remote}
    (hw : w.inner.free + 1 = (h.remote i).inner.free) (hmore : 0 < w.inner.free) :
    Inv cfg { h with remote := update h.remote i w } (a.release i k) := by
  obtain ⟨hbusy, hb, hplace⟩ := inv.busy_of_live hk
  have hbusy' : Busy { h with remote := update h.remote i w } ((a.live i).erase k) i :=
    busy_remote hbusy hk rfl rfl (by simpa using hw)
  refine inv.step i inv.chains ?_ ?_ inv.lens rfl
  · intro j hj
    exact ⟨by constructor <;> simp [hj], fun _ => Iff.rfl, Ledger.release_live_of_ne hj⟩
  · rw [Ledger.release_live_self]
    rcases hplace with ⟨t, c, hi⟩ | hout
    · obtain ⟨-, howner, hclass, hne⟩ := (inv.slab i).sized t c hi
      exact SlabOk.of_sized (inv.slab i).last hb (inv.mem_iff hi) hbusy' howner hclass hne
    · obtain ⟨-, hempty, -⟩ := (inv.slab i).detached hb hout
      refine SlabOk.of_detached (inv.slab i).last hb hout hbusy' hempty ?_
      -- the bitset is empty, so what the counter still counts is live
      have hcounter := hbusy'.counter
      rw [show (h.bits i).elems = ∅ from hempty] at hcounter
      simp only [Finset.card_empty, update_self] at hcounter
      exact Finset.card_pos.mp (by omega)

omit [DecidableEq T] [DecidableEq B] in
/-- A slab of which one block is left, and that one live, is on no chain. -/
theorem off_of_last (inv : Inv cfg h a) {k : ℕ} (hk : k ∈ a.live i)
    (hone : (h.remote i).inner.free = 1) : ∀ l, i ∉ a.chain l := by
  obtain ⟨hbusy, -, hplace⟩ := inv.busy_of_live hk
  have hcounter := hbusy.counter
  have hcard := Finset.card_pos.mpr ⟨k, hk⟩
  rcases hplace with ⟨t, c, hi⟩ | hout
  · obtain ⟨-, -, -, hne⟩ := (inv.slab i).sized t c hi
    have := Finset.card_pos.mpr hne
    omega
  · exact hout

/-- `free_remote` of the last block in use, and `claim`. -/
theorem claim (inv : Inv cfg h a) {k : ℕ} (hk : k ∈ a.live i) {w : Word T Remote}
    (hone : (h.remote i).inner.free = 1) :
    Inv cfg
      { h with
        remote := update h.remote i w
        owner := update h.owner i (some t)
        lastOwner := update h.lastOwner i (some t)
        next := update h.next i (h.head (.unsized t))
        head := update h.head (.unsized t) (some i)
        len := update h.len (.unsized t) (h.len (.unsized t) + 1) }
      ((a.release i k).push i (some (.unsized t))) := by
  obtain ⟨hbusy, hb, -⟩ := inv.busy_of_live hk
  have hcounter := hbusy.counter
  have hlive : (a.live i).erase k = ∅ := by
    rw [← Finset.card_eq_zero, Finset.card_erase_of_mem hk]
    omega
  have hout := inv.off_of_last hk hone
  refine inv.step i ?_ ?_ ?_ (length_push inv.lens) rfl
  · rw [Heap.heads, Heap.headsOf_head]
    exact inv.chains.push (k := some (.unsized t)) hout
  · intro j hj
    exact ⟨by constructor <;> simp [hj], mem_push_of_ne hj,
      Ledger.release_live_of_ne hj⟩
  · refine SlabOk.of_unsized (t := t) (.inr (by simp)) hb (mem_push_self (a := a.release i k) hout)
      ?_ (by simp)
    rw [Ledger.push_live, Ledger.release_live_self]
    exact hlive

end Inv

/-! ### A range of new slabs -/

/-- The `n` indices from `i` on. -/
def Index.run {B : Type} (i : Index B) : ℕ → List (Index B)
  | 0 => []
  | n + 1 => i :: run i.succ n

omit [Bracket B] [DecidableEq B] in
theorem Index.mem_run {j : Index B} {n : ℕ} :
    j ∈ i.run n ↔ i.value ≤ j.value ∧ j.value < i.value + n := by
  induction n generalizing i with
  | zero => simp only [run, List.not_mem_nil, false_iff]; omega
  | succ n ih =>
    have hsucc : i.succ.value = i.value + 1 := rfl
    rw [run, List.mem_cons, ih, hsucc, Index.ext_iff]
    omega

omit [Bracket B] [DecidableEq B] in
theorem Index.length_run {n : ℕ} : (i.run n).length = n := by
  induction n generalizing i with
  | zero => rfl
  | succ n ih => rw [run, List.length_cons, ih]

omit [Bracket B] [DecidableEq B] in
/-- Links from each index to the next one thread the whole range. -/
theorem Index.seg_run {next : Index B → Option (Index B)} {n : ℕ}
    (hn : ∀ j ∈ i.run n, next j = if j.value + 1 = i.value + n then none else some j.succ) :
    Seg next (if n = 0 then none else some i) (i.run n) none := by
  induction n generalizing i with
  | zero => exact rfl
  | succ n ih =>
    have hsucc : i.succ.value = i.value + 1 := rfl
    have hfirst : next i = if n = 0 then none else some i.succ := by
      rw [hn i (by simp [run])]
      exact if_congr (by omega) rfl rfl
    refine ⟨rfl, ?_⟩
    rw [hfirst]
    refine ih fun j hj => ?_
    rw [hn j (by simp [run, hj]), hsucc]
    exact if_congr (by omega) rfl rfl

/-- The `n` new slabs from `i` on are the unsized stack of `t`, recorded as `len`. -/
def Ledger.grow (a : Ledger T B) (t : T) (i : Index B) (n len : ℕ) : Ledger T B :=
  { a with
    chain := update a.chain (some (.unsized t)) (i.run n)
    excess := update a.excess (.unsized t) (len - n) }

/-- A first part of the unsized stack of `t` moved to the global stack; `post` is left,
recorded as `len`. -/
def Ledger.share (a : Ledger T B) (t : T) (taken post : List (Index B)) (len : ℕ) : Ledger T B :=
  { a with
    chain := update (update a.chain (some (.unsized t)) post) none (taken ++ a.chain none)
    excess := update a.excess (.unsized t) (len - post.length) }

/-- The heap after `Slab::link` over the `n` indices from `i` on. -/
def Heap.linked (h : Heap T B) (t : T) (n : ℕ) (i : Index B) : Heap T B :=
  { h with
    owner := fun j => if j ∈ i.run n then some t else h.owner j
    lastOwner := fun j => if j ∈ i.run n then some t else h.lastOwner j
    next := fun j =>
      if j ∈ i.run n then (if j.value + 1 = i.value + n then none else some j.succ)
      else h.next j }

namespace Inv

omit [Bracket B] in
theorem mem_grow (hempty : a.chain (some (.unsized t)) = []) {n len : ℕ} {j : Index B} {l : Loc T B}
    (hj : j ∉ i.run n) : j ∈ (a.grow t i n len).chain l ↔ j ∈ a.chain l := by
  by_cases hl : l = some (.unsized t)
  · subst hl
    simp [Ledger.grow, hj, hempty]
  · simp [Ledger.grow, hl]

/-- `Shared::bump` and `link`: a range of new slabs becomes the thread's unsized stack.
`len` may be more than there are slabs in the range. -/
theorem bumpToUnsized (inv : Inv cfg h a) (hempty : a.chain (some (.unsized t)) = []) {n len : ℕ}
    (hpos : 0 < n) (hlen : n ≤ len) (hi : i.value = h.bumpIndex) (hfit : i.value + n < 2 ^ 32)
    {e : Index B} (hw : w.inner = some e) (he : e.value = i.value + n) :
    Inv cfg
      { h.linked t n i with
        bump := w
        head := update h.head (.unsized t) (some i)
        len := update h.len (.unsized t) len } (a.grow t i n len) := by
  have hbump : ∀ g : Heap T B, g.bump = w → g.bumpIndex = i.value + n := by
    rintro g rfl
    rw [Heap.bumpIndex, hw]
    exact he
  have hnew : ∀ j ∈ i.run n, ∀ l, j ∉ a.chain l := by
    intro j hj l hl
    have := inv.below hl
    have := Index.mem_run.mp hj
    omega
  refine inv.stepOn (· ∈ i.run n) ?_ ?_ ?_ ?_ ?_
  · rw [Heap.heads, Heap.headsOf_head]
    refine inv.chains.replace ?_ ?_ ?_
    · intro l _ j hj
      exact if_neg fun hr => hnew j hr l hj
    · have hseg : Seg (h.linked t n i).next (if n = 0 then none else some i) (i.run n) none :=
        Index.seg_run fun j hj => if_pos hj
      rwa [if_neg (by omega)] at hseg
    · exact fun l _ j hj => hnew j hj l
  · intro j hj
    have hrange := mt Index.mem_run.mpr hj
    refine ⟨⟨if_neg hj, if_neg hj, rfl, rfl, rfl⟩, fun l => mem_grow hempty hj, rfl, ?_⟩
    rw [hbump _ rfl]
    omega
  · intro j hj
    have hrange := Index.mem_run.mp hj
    refine SlabOk.of_unsized (t := t) (.inr ?_) ?_ ?_ ?_ (if_pos hj)
    · exact (if_pos hj).trans (if_pos hj).symm
    · rw [hbump _ rfl]
      omega
    · intro l
      by_cases hl : l = some (.unsized t)
      · subst hl
        simp [Ledger.grow, hj]
      · simp [Ledger.grow, hl, hnew j hj l]
    · exact ((inv.slab j).fresh (by omega)).1
  · intro u
    by_cases hu : u = .unsized t
    · subst hu
      simp only [Ledger.grow, update_self, Index.length_run]
      omega
    · have hu' : (some u : Loc T B) ≠ some (.unsized t) := by simpa using hu
      simp only [Ledger.grow, update_of_ne hu, update_of_ne hu']
      exact inv.lens u
  · rw [hbump _ rfl]
    exact hfit

theorem mem_share (inv : Inv cfg h a) {taken post : List (Index B)}
    (hl : a.chain (some (.unsized t)) = taken ++ post) {len : ℕ} {j : Index B} {l : Loc T B} :
    j ∈ (a.share t taken post len).chain l ↔
      (j ∈ a.chain l ∧ j ∉ taken) ∨ (j ∈ taken ∧ l = none) := by
  have hk : (none : Loc T B) ≠ some (.unsized t) := by simp
  have hglobal : update a.chain (some (.unsized t)) post none = a.chain none := update_of_ne hk _ _
  simp only [Ledger.share]
  rw [← hglobal, Chains.mem_prepend, inv.chains.mem_split hl]

/-- `unsized_to_global`: a first part of the unsized stack is pushed on the global
stack in one piece. -/
theorem unsizedToGlobal (inv : Inv cfg h a) {tail : Index B}
    (hl : a.chain (some (.unsized t)) = pre ++ [tail] ++ post) (len : ℕ) (hlen : post.length ≤ len)
    (hw : w.inner = h.head (.unsized t)) {owner : Index B → Option T}
    (ho : ∀ j, j ∉ pre ++ [tail] → owner j = h.owner j)
    (ho' : ∀ j ∈ pre ++ [tail], owner j = none ∨ owner j = h.owner j)
    (hval : cfg.validate = true → ∀ j ∈ pre ++ [tail], owner j = none) :
    Inv cfg
      { h with
        global := w
        owner := owner
        next := update h.next tail h.global.inner
        head := update h.head (.unsized t) post.head?
        len := update h.len (.unsized t) len } (a.share t (pre ++ [tail]) post len) := by
  have hmem : ∀ j ∈ pre ++ [tail], j ∈ a.chain (some (.unsized t)) := fun j hj => by
    rw [hl]
    exact List.mem_append_left _ hj
  have hnd := inv.chains.nodup (some (.unsized t))
  rw [hl] at hnd
  have htail : tail ∉ pre := fun hp =>
    List.disjoint_of_nodup_append (List.nodup_append.mp hnd).1 hp (by simp)
  have hk : (none : Loc T B) ≠ some (.unsized t) := by simp
  have hglobal : update a.chain (some (.unsized t)) post none = a.chain none := update_of_ne hk _ _
  have hmem' : ∀ j l, j ∈ (a.share t (pre ++ [tail]) post len).chain l ↔
      (j ∈ a.chain l ∧ j ∉ pre ++ [tail]) ∨ (j ∈ pre ++ [tail] ∧ l = none) :=
    fun _ _ => inv.mem_share hl
  refine inv.stepOn (· ∈ pre ++ [tail]) ?_ ?_ ?_ ?_ inv.bound
  · have hs := inv.chains.seg (some (.unsized t))
    rw [hl] at hs
    obtain ⟨m, hs, -⟩ := Lib.seg_append.mp hs
    have hsplit := inv.chains.split hl
    have hpre := hsplit.prepend (k := none) hs htail fun l j hj hin =>
      ((inv.chains.mem_split hl).mp hin).2 hj
    rw [Heap.heads, hw, Heap.headsOf_global (g := h.global.inner), Heap.headsOf_head]
    rw [hglobal, update_of_ne hk] at hpre
    exact hpre
  · intro j hj
    exact ⟨⟨ho j hj, rfl, rfl, rfl, rfl⟩, fun l => by simp only [hmem', hj]; simp, rfl, Iff.rfl⟩
  · intro j hj
    refine SlabOk.of_global ?_ (inv.below (hmem j hj)) (fun l => by simp only [hmem', hj]; simp) ?_
      fun hv => hval hv j hj
    · rcases ho' j hj with hj' | hj'
      · exact .inl hj'
      · show owner j = none ∨ owner j = h.lastOwner j
        rw [hj']
        exact (inv.slab j).last
    · exact ((inv.slab j).unsized t (hmem j hj)).1
  · intro u
    simp only [Ledger.share, update_of_ne (by simp : (some u : Loc T B) ≠ none)]
    by_cases hu : u = .unsized t
    · subst hu
      simp only [update_self]
      omega
    · have hu' : (some u : Loc T B) ≠ some (.unsized t) := by simpa using hu
      simp only [update_of_ne hu, update_of_ne hu']
      exact inv.lens u

end Inv

end Cxlalloc
