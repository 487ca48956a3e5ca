/-
What `Owned::is_valid` says of a heap that represents a ledger.

Of all that `is_valid` tests, the invariant already gives the owners, the classes, the
bitsets and the disjointness of the stacks.  What is left is whether the recorded
lengths are the lengths of the chains, so the test passes exactly when no length of
the thread has drifted.
-/
import Cxlalloc.Proofs.Transitions

namespace Cxlalloc

open Lib
open Cxlalloc.Bracket

variable {T B : Type}

@[simp] theorem StackId.of_inj {t : T} {k k' : Option B} : StackId.of t k = .of t k' ↔ k = k' := by
  cases k <;> cases k' <;> simp [StackId.of]

/-- Every recorded length is the length of its chain. -/
def Ledger.Exact (a : Ledger T B) : Prop :=
  ∀ s, a.excess s = 0

/-- Every recorded length of thread `t` is the length of its chain. -/
def Ledger.ExactAt (a : Ledger T B) (t : T) : Prop :=
  a.excess (.unsized t) = 0 ∧ ∀ c, a.excess (.sized t c) = 0

theorem Ledger.Exact.at {a : Ledger T B} (h : a.Exact) (t : T) : a.ExactAt t :=
  ⟨h _, fun _ => h _⟩

/-- If the recorded length of a stack was right before, it still is. -/
def Ledger.Keeps (a a' : Ledger T B) (s : StackId T B) : Prop :=
  a.excess s = 0 → a'.excess s = 0

theorem Ledger.Exact.keeps {a a' : Ledger T B} (h : a.Exact) (hk : ∀ s, a.Keeps a' s) : a'.Exact :=
  fun s => hk s (h s)

section

variable [DecidableEq T] [DecidableEq B] {a : Ledger T B} {t : T} {i : Index B} {s : StackId T B}

theorem Ledger.keeps_grow {n : ℕ} : a.Keeps (a.grow t i n n) s := by
  intro h
  by_cases hs : s = .unsized t
  · subst hs
    simp [Ledger.grow]
  · simpa [Ledger.grow, hs] using h

theorem Ledger.keeps_share {taken post : List (Index B)} {len : ℕ}
    (hlen : a.excess (.unsized t) = 0 → len = post.length) :
    a.Keeps (a.share t taken post len) s := by
  intro h
  by_cases hs : s = .unsized t
  · subst hs
    simp [Ledger.share, hlen h]
  · simpa [Ledger.share, hs] using h

end

variable [Bracket B] {cfg : Config} {h : Heap T B} {a : Ledger T B}

namespace Heap

variable {xs : List (Index B)}

theorem traceN_eq {o : Option (Index B)} (n : ℕ)
    (hs : Seg h.next o xs none) : h.traceN n o = xs.take n := by
  induction n generalizing o xs with
  | zero => simp [traceN]
  | succ n ih =>
    cases xs with
    | nil =>
      obtain rfl : o = none := hs
      rfl
    | cons i xs =>
      obtain ⟨rfl, hs⟩ := hs
      rw [traceN, ih hs, List.take_succ_cons]

omit [Bracket B] in
theorem chainIsValid_eq_some {ok : Index B → Bool} {xs seen : List (Index B)} (hnd : xs.Nodup)
    (hseen : ∀ i ∈ xs, i ∉ seen) (hok : ∀ i ∈ xs, ok i = true) :
    chainIsValid ok xs seen = some (xs.reverse ++ seen) := by
  induction xs generalizing seen with
  | nil => rfl
  | cons i xs ih =>
    obtain ⟨hi, hnd⟩ := List.nodup_cons.mp hnd
    rw [chainIsValid, if_neg (hseen i (by simp)), if_pos (hok i (by simp)), ih hnd]
    · simp
    · intro j hj
      rw [List.mem_cons, not_or]
      exact ⟨fun e => hi (e ▸ hj), hseen j (by simp [hj])⟩
    · exact fun j hj => hok j (by simp [hj])

/-- Counting one past the recorded length tells whether it is right. -/
theorem stackIsValid_iff {s : StackId T B}
    (hs : Seg h.next (h.head s) xs none) : h.stackIsValid s = true ↔ h.len s = xs.length := by
  rw [stackIsValid, traceN_eq _ hs, List.length_take, beq_iff_eq]
  omega

theorem trace_all {s : StackId T B} (hs : Seg h.next (h.head s) xs none)
    (hlen : h.len s = xs.length) : h.traceN (h.len s) (h.head s) = xs := by
  rw [traceN_eq _ hs, List.take_of_length_le (by omega)]

/-- Each slab of `L` is as the stack of thread `t` that it is listed for wants it. -/
structure Records (t : T) (h : Heap T B) (L : Option B → List (Index B)) : Prop where
  unsized : ∀ i ∈ L none, h.owner i = some t
  sized : ∀ c, ∀ i ∈ L (some c), h.owner i = some t ∧ h.sizeClass i = c ∧ 0 < (h.bits i).len

/-- The stacks of thread `t` hold `L`, and each slab is as its stack wants it. -/
structure Owned (t : T) (h : Heap T B) (L : Option B → List (Index B)) : Prop extends
    Records t h L where
  chains : Chains h.next (fun k => h.head (.of t k)) L

namespace Owned

variable [DecidableEq T] [DecidableEq B] {t : T} {L : Option B → List (Index B)}

/-- One sized stack passes exactly if its length is right; it is then added to what was
seen. -/
theorem sizedIsValid_eq (ho : h.Owned t L) {c : B} {seen : List (Index B)}
    (hseen : ∀ i ∈ L (some c), i ∉ seen) :
    h.sizedIsValid t c seen =
      if h.len (.sized t c) = (L (some c)).length then some ((L (some c)).reverse ++ seen)
      else none := by
  have hseg : Seg h.next (h.head (.sized t c)) (L (some c)) none := ho.chains.seg (some c)
  by_cases hlen : h.len (.sized t c) = (L (some c)).length
  · rw [if_pos hlen, Heap.sizedIsValid, if_pos ((stackIsValid_iff hseg).mpr hlen),
      trace_all hseg hlen, Heap.chainIsValid_eq_some (ho.chains.nodup _) hseen]
    intro i hi
    obtain ⟨howner, hclass, hpos⟩ := ho.sized c i hi
    simp [hpos, hclass, howner]
  · rw [if_neg hlen, Heap.sizedIsValid, if_neg]
    rw [stackIsValid_iff hseg]
    exact hlen

/-- The loop over the size classes. -/
theorem sized_fold (ho : h.Owned t L) (cs : List B) (hnd : cs.Nodup)
    {seen : List (Index B)} (hseen : ∀ c ∈ cs, ∀ i ∈ L (some c), i ∉ seen) :
    (cs.foldlM (fun seen c => h.sizedIsValid t c seen) seen).isSome = true ↔
      ∀ c ∈ cs, h.len (.sized t c) = (L (some c)).length := by
  induction cs generalizing seen with
  | nil => simp
  | cons c cs ih =>
    obtain ⟨hc, hnd⟩ := List.nodup_cons.mp hnd
    rw [List.foldlM_cons, ho.sizedIsValid_eq (hseen c (by simp))]
    by_cases hlen : h.len (.sized t c) = (L (some c)).length
    · rw [if_pos hlen, Option.bind_eq_bind, Option.bind_some, ih hnd]
      · simp [hlen]
      · intro c' hc' i hi hin
        rcases List.mem_append.mp hin with hin | hin
        · have := ho.chains.disjoint _ _ i hi (List.mem_reverse.mp hin)
          obtain rfl : c' = c := by simpa using this
          exact hc hc'
        · exact hseen c' (by simp [hc']) i hi hin
    · simp [hlen]

/-- `is_valid` passes exactly when every recorded length of the thread is right. -/
theorem isValid_iff [LawfulBracket B] (ho : h.Owned t L) :
    h.isValid t = true ↔ ∀ k, h.len (.of t k) = (L k).length := by
  have hseg : Seg h.next (h.head (.unsized t)) (L none) none := ho.chains.seg none
  have hsplit : (∀ k, h.len (.of t k) = (L k).length) ↔
      h.len (.unsized t) = (L none).length ∧ ∀ c, h.len (.sized t c) = (L (some c)).length :=
    Option.forall
  rw [Heap.isValid, hsplit]
  by_cases hlen : h.len (.unsized t) = (L none).length
  · have hok : ∀ i ∈ L none, decide (h.owner i = some t) = true :=
      fun i hi => decide_eq_true (ho.unsized i hi)
    rw [if_pos ((stackIsValid_iff hseg).mpr hlen), trace_all hseg hlen,
      Heap.chainIsValid_eq_some (ho.chains.nodup _) (by simp) hok]
    simp only [List.append_nil]
    rw [ho.sized_fold _ LawfulBracket.nodup_classes]
    · simp [hlen, LawfulBracket.mem_classes]
    · intro c _ i hi hin
      have hin : i ∈ L none := by simpa using hin
      simpa using ho.chains.disjoint _ _ i hi hin
  · rw [if_neg (by rw [stackIsValid_iff hseg]; exact hlen)]
    simp [hlen]

end Owned

/-- Slabs that are counted but not there are noticed. -/
theorem isValid_of_missing [DecidableEq T] [DecidableEq B] {t : T}
    (hhead : h.head (.unsized t) = none) (hlen : h.len (.unsized t) ≠ 0) : h.isValid t = false := by
  have hstack : h.stackIsValid (.unsized t) = false := by
    rw [stackIsValid, hhead, traceN, List.length_nil]
    exact beq_eq_false_iff_ne.mpr hlen.symm
  rw [isValid, hstack]
  rfl

end Heap

namespace Inv

theorem chains_of (inv : Inv cfg h a) (t : T) :
    Chains h.next (fun k => h.head (.of t k)) fun k => a.chain (some (.of t k)) := by
  refine ⟨fun k => inv.chains.seg (some (.of t k)), fun k k' i hi hi' => ?_⟩
  simpa using inv.chains.disjoint _ _ i hi hi'

theorem owned (inv : Inv cfg h a) (t : T) : h.Owned t fun k => a.chain (some (.of t k)) where
  chains := inv.chains_of t
  unsized i hi := ((inv.slab i).unsized t hi).2
  sized c i hi := by
    obtain ⟨hbusy, howner, hclass, hne⟩ := (inv.slab i).sized t c hi
    refine ⟨howner, hclass, ?_⟩
    rw [BitSet.len_eq_card hbusy.validate]
    exact Finset.card_pos.mpr hne

/-- **`is_valid` passes exactly when no length of the thread has drifted.** -/
theorem isValid_iff [DecidableEq T] [DecidableEq B] [LawfulBracket B] (inv : Inv cfg h a) (t : T) :
    h.isValid t = true ↔ a.ExactAt t := by
  have hlen : ∀ s : StackId T B, h.len s = (a.chain (some s)).length ↔ a.excess s = 0 := by
    intro s
    rw [inv.lens s]
    omega
  rw [(inv.owned t).isValid_iff, Option.forall]
  exact and_congr (hlen _) (forall_congr' fun c => hlen _)

end Inv

end Cxlalloc
