/-
The slab heap under every interleaving: surgeries on the stacks of one thread.

A thread's stacks are in order when its slabs are on the unsized one, and those it has carved on
the stack of their class as long as they have a free block (`View.Ok`).  Each transition of a slab
keeps them so: the chains by one of the surgeries of `Lib.Chains`, and who is on them by what
happened to the slab that moved.
-/
import Cxlalloc.Proofs.HeapAccesses

namespace Cxlalloc

open Lib
open Cxlalloc.Bracket
open Function

namespace View

variable {T B : Type} [Bracket B] {t : T} {v v' : View T B} {i : Index B}
  {L : Option B → List (Index B)} {h : Option (Hand B)} {c : B}

/-- The stacks are in order, and `h` is in the thread's hands. -/
def Good (t : T) (h : Option (Hand B)) (v : View T B) : Prop :=
  (∃ L, v.Ok t L) ∧ v.hand = h

variable {k : Option B}

theorem Ok.mem_of_head (hok : v.Ok t L) (hi : v.head k = some i) : ∃ xs, L k = i :: xs :=
  hok.chains.cons_eq hi

theorem Ok.len_pos (hok : v.Ok t L) (hi : v.head k = some i) : 1 ≤ v.len k := by
  obtain ⟨xs, hl⟩ := hok.mem_of_head hi
  have hlen := hok.len k
  rw [hl, List.length_cons] at hlen
  omega

theorem Ok.unsized_of_head (hok : v.Ok t L) (hi : v.head none = some i) : v.place i = .unsized := by
  obtain ⟨xs, hl⟩ := hok.mem_of_head hi
  exact (hok.unsized i).mp (by simp [hl])

theorem Ok.sized_of_head (hok : v.Ok t L) (hi : v.head (some c) = some i) :
    v.place i = .sized ∧ v.sizeClass i = c ∧ (v.bits i).elems.Nonempty := by
  obtain ⟨xs, hl⟩ := hok.mem_of_head hi
  exact (hok.sized c i).mp (by simp [hl])

theorem Ok.next_of_head (hok : v.Ok t L) {j : Index B} (hi : v.head none = some i)
    (hj : v.next i = some j) : j ≠ i ∧ v.place j = .unsized := by
  obtain ⟨xs, hl⟩ := hok.mem_of_head hi
  have hnodup := hok.chains.nodup none
  have hmem : j ∈ xs := List.mem_of_mem_head? (by rw [← hok.chains.next_head hl, hj]; rfl)
  rw [hl] at hnodup
  refine ⟨?_, (hok.unsized j).mp (by simp [hl, hmem])⟩
  rintro rfl
  exact (List.nodup_cons.mp hnodup).1 hmem

/-- The first part of a stack. -/
theorem Ok.batch (hok : v.Ok t L) {before after : List (Index B)} {last : Index B}
    (hl : L k = before ++ [last] ++ after) :
    Seg v.next (v.head k) (before ++ [last]) after.head? ∧ last ∉ before ∧
      v.next last = after.head? := by
  have hseg := hok.chains.seg k
  have hnodup := hok.chains.nodup k
  rw [hl] at hseg hnodup
  obtain ⟨m, hbatch, hafter⟩ := Lib.seg_append.mp hseg
  refine ⟨hafter.head_eq ▸ hbatch, fun hmem => ?_, ?_⟩
  · exact List.disjoint_of_nodup_append (List.nodup_append.mp hnodup).1 hmem (by simp)
  · rw [List.append_assoc] at hseg
    exact hseg.next_eq

/-- A slab that is on no stack. -/
theorem Ok.notMem (hok : v.Ok t L) (hunsized : v.place i ≠ .unsized)
    (hempty : v.place i = .sized → (v.bits i).elems = ∅) (k : Option B) : i ∉ L k := by
  cases k with
  | none =>
    rw [hok.unsized]
    exact hunsized
  | some c =>
    rw [hok.sized]
    rintro ⟨hp, -, hne⟩
    exact hne.ne_empty (hempty hp)

/-- What else the thread knows does not matter. -/
theorem Ok.forget (hok : v.Ok t L) (hand : Option (Hand B))
    (seen : Option (Word T (Option (Index B)))) (link : Option (Index B × Option (Index B))) :
    Ok t { v with hand := hand, seen := seen, link := link } L :=
  ⟨hok.chains, hok.len, hok.unsized, hok.sized, hok.owner⟩

variable {s : BitSet (rows B)}

/-- A slab that stays on the stack of its class, as it still has a free block, or off it. -/
theorem Ok.rewrite (hok : v.Ok t L) (hs : s.elems.Nonempty ↔ (v.bits i).elems.Nonempty)
    (hand : Option (Hand B)) : Ok t { v with bits := update v.bits i s, hand := hand } L := by
  refine ⟨hok.chains, hok.len, hok.unsized, fun c j => ?_, hok.owner⟩
  rw [hok.sized]
  by_cases hj : j = i
  · subst hj
    simp [hs]
  · simp [hj]

/-- Slabs that nobody is told of any more. -/
theorem Ok.leave (hok : v.Ok t L) (hi : v.place i = .sized) (hempty : (v.bits i).elems = ∅) :
    Ok t { v with place := update v.place i .away } L := by
  refine ⟨hok.chains, hok.len, fun j => ?_, fun c j => ?_, fun j hj => ?_⟩
  · rw [hok.unsized]
    by_cases hj : j = i
    · subst hj
      simp [hi]
    · simp [hj]
  · rw [hok.sized]
    by_cases hj : j = i
    · subst hj
      simp [hempty]
    · simp [hj]
  · by_cases hji : j = i
    · subst hji
      simp at hj
    · exact hok.owner j (by simpa [hji] using hj)

theorem next_eq_of_hold (h : v'.hold i = v.hold i) : v'.next i = v.next i :=
  congrArg Holding.next h

/-- The slabs from `i` on, owned by the thread and linked one to the next. -/
def linked (t : T) (n : ℕ) (i : Index B) (v : View T B) : View T B :=
  { v with
    owner := fun j => if j ∈ i.run n then some t else v.owner j
    next := fun j =>
      if j ∈ i.run n then if j.value + 1 = i.value + n then none else some j.succ else v.next j }

theorem linked_zero : v.linked t 0 i = v := by
  simp [linked, Index.run]

theorem linked_succ {n : ℕ} : linked t n i.succ { v with
      owner := update v.owner i (some t)
      next := update v.next i (if n = 0 then none else some i.succ) } = v.linked t (n + 1) i := by
  have hsucc : i.succ.value = i.value + 1 := rfl
  have hnotin : i ∉ i.succ.run n := by
    rw [Index.mem_run]
    omega
  have hmem : ∀ j, j ∈ i.run (n + 1) ↔ j = i ∨ j ∈ i.succ.run n := fun j => List.mem_cons
  simp only [linked, hsucc, hmem]
  congr 1
  · funext j
    by_cases hj : j = i
    · subst hj
      simp only [hnotin, if_false, update_self, true_or, if_true]
      exact if_congr (by omega) rfl rfl
    · simp only [hj, false_or, update_of_ne hj]
      refine if_congr Iff.rfl (if_congr (by omega) rfl rfl) rfl
  · funext j
    by_cases hj : j = i
    · subst hj
      simp
    · simp [hj]

variable [DecidableEq B]

/-! ### Lengths -/

theorem Ok.len_prepend (hok : v.Ok t L) (xs : List (Index B)) (l : Option B) :
    (update L k (xs ++ L k) l).length ≤ update v.len k (v.len k + xs.length) l := by
  have hlen := hok.len l
  by_cases hl : l = k
  · subst hl
    simp only [update_self, List.length_append]
    omega
  · simpa only [update_of_ne hl] using hlen

theorem Ok.len_drop (hok : v.Ok t L) (hi : i ∈ L k) (l : Option B) :
    (Chains.drop L i k l).length ≤ update v.len k (v.len k - 1) l := by
  have hlen := hok.len l
  by_cases hl : l = k
  · subst hl
    have hdrop := Chains.length_drop hi
    rw [update_self]
    omega
  · rw [Chains.drop, update_of_ne hl, update_of_ne hl]
    exact hlen

theorem Ok.len_move (hok : v.Ok t L) {k k' : Option B} (hi : i ∈ L k) (hk : k ≠ k') (l : Option B) :
    (Chains.move L i k k' l).length ≤
      update (update v.len k (v.len k - 1)) k' (v.len k' + 1) l := by
  by_cases hl : l = k'
  · subst hl
    have hlen := hok.len l
    rw [Chains.move, update_self, update_self, List.length_cons]
    omega
  · rw [Chains.move, update_of_ne hl, update_of_ne hl]
    exact hok.len_drop hi l

/-- The length of the stack that a slab is unlinked from may stay as it is. -/
theorem Ok.len_move_mid (hok : v.Ok t L) {k k' : Option B} (hi : i ∈ L k) (hk : k ≠ k')
    (l : Option B) : (Chains.move L i k k' l).length ≤ update v.len k' (v.len k' + 1) l := by
  refine (hok.len_move hi hk l).trans ?_
  by_cases hl : l = k'
  · subst hl
    simp
  · by_cases hl' : l = k
    · subst hl'
      simp [hl]
    · simp [hl, hl']

/-! ### Transitions of a slab -/

/-- The slab on top of the unsized stack is carved, and goes on the stack of its class. -/
theorem Ok.carve (hok : v.Ok t L) (hi : v.head none = some i) (hs : s.elems.Nonempty) :
    Ok t { v with
      sizeClass := update v.sizeClass i c
      bits := update v.bits i s
      next := update v.next i (v.head (some c))
      head := update (update v.head (some c) (some i)) none (v.next i)
      len := update (update v.len (some c) (v.len (some c) + 1)) none (v.len none - 1)
      place := update v.place i .sized } (Chains.move L i none (some c)) := by
  obtain ⟨xs, hl⟩ := hok.mem_of_head hi
  have hmem : i ∈ L none := by simp [hl]
  have hk : none ≠ some c := by simp
  refine ⟨?_, ?_, fun j => ?_, fun c' j => ?_, fun j hj => ?_⟩
  · have hchains := hok.chains.move_head hl hk
    rwa [update_comm (by simp)] at hchains
  · have hlen := hok.len_move hmem hk
    rwa [update_comm (by simp)] at hlen
  · rw [hok.chains.mem_move hmem (by simp), hok.unsized]
    by_cases hj : j = i
    · subst hj
      simp
    · simp [hj]
  · rw [hok.chains.mem_move hmem (by simp), hok.sized]
    by_cases hj : j = i
    · subst hj
      simp [hs, eq_comm]
    · simp [hj]
  · by_cases hji : j = i
    · subst hji
      simp at hj
    · exact hok.owner j (by simpa [hji] using hj)

/-- A slab goes from the stack of its class to the unsized one. -/
theorem Ok.retire (hok : v.Ok t L) (hi : i ∈ L (some c)) {next : Index B → Option (Index B)}
    {head : Option B → Option (Index B)} {len : Option B → ℕ} (howner : v.owner i = some t)
    (hchains : Chains next head (Chains.move L i (some c) none))
    (hlen : ∀ k, (Chains.move L i (some c) none k).length ≤ len k) :
    Ok t { v with next := next, head := head, len := len, place := update v.place i .unsized }
      (Chains.move L i (some c) none) := by
  refine ⟨hchains, hlen, fun j => ?_, fun c' j => ?_, fun j hj => ?_⟩
  · rw [hok.chains.mem_move hi (by simp), hok.unsized]
    by_cases hj : j = i
    · subst hj
      simp
    · simp [hj]
  · rw [hok.chains.mem_move hi (by simp), hok.sized]
    by_cases hj : j = i
    · subst hj
      simp
    · simp [hj]
  · by_cases hji : j = i
    · subst hji
      exact howner
    · exact hok.owner j (by simpa [hji] using hj)

/-- The slab on top of the stack of its class has lost its last free block, and is taken off. -/
theorem Ok.detach (hok : v.Ok t L) (hi : v.head (some c) = some i)
    (hs : s.elems = ∅) (hand : Option (Hand B)) :
    Ok t { v with
      bits := update v.bits i s
      hand := hand
      head := update v.head (some c) (v.next i)
      len := update v.len (some c) (v.len (some c) - 1) } (Chains.drop L i (some c)) := by
  obtain ⟨xs, hl⟩ := hok.mem_of_head hi
  have hmem : i ∈ L (some c) := by simp [hl]
  obtain ⟨hplace, -, -⟩ := hok.sized_of_head hi
  refine ⟨hok.chains.drop_head hl, hok.len_drop hmem, fun j => ?_, fun c' j => ?_, hok.owner⟩
  · rw [hok.chains.mem_drop hmem, hok.unsized]
    by_cases hj : j = i
    · subst hj
      simp [hplace]
    · simp [hj]
  · rw [hok.chains.mem_drop hmem, hok.sized]
    by_cases hj : j = i
    · subst hj
      simp [hs]
    · simp [hj]

/-- A slab without free blocks gets one, and goes on the stack of its class. -/
theorem Ok.attach (hok : v.Ok t L) (hi : v.place i = .sized) (hempty : (v.bits i).elems = ∅)
    (hs : s.elems.Nonempty) (hand : Option (Hand B)) :
    Ok t { v with
      bits := update v.bits i s
      hand := hand
      next := update v.next i (v.head (some (v.sizeClass i)))
      head := update v.head (some (v.sizeClass i)) (some i)
      len := update v.len (some (v.sizeClass i)) (v.len (some (v.sizeClass i)) + 1) }
      (update L (some (v.sizeClass i)) (i :: L (some (v.sizeClass i)))) := by
  have hfree : ∀ k, i ∉ L k := hok.notMem (by simp [hi]) fun _ => hempty
  refine ⟨hok.chains.push hfree, hok.len_prepend [i], fun j => ?_, fun c' j => ?_,
    hok.owner⟩
  · rw [Chains.mem_push, hok.unsized]
    simp
  · rw [Chains.mem_push, hok.sized]
    by_cases hj : j = i
    · subst hj
      simp [hi, hempty, hs, eq_comm]
    · simp [hj]

/-- Slabs that have become the thread's own, and are linked in front of its unsized stack. -/
theorem Ok.adopt (hok : v.Ok t L) {batch : List (Index B)}
    (haway : ∀ j ∈ batch, v.place j = .away)
    (hgained : ∀ j ∈ batch, v'.place j = .unsized ∧ v'.owner j = some t)
    (hkept : ∀ j, j ∉ batch → v'.hold j = v.hold j)
    (hseg : Seg v'.next (batch.head?) batch (v.head none))
    (hhead : v'.head = update v.head none batch.head?)
    (hlen : ∀ k, (update L none (batch ++ L none) k).length ≤ v'.len k) :
    Ok t v' (update L none (batch ++ L none)) := by
  have hfree : ∀ k, ∀ j ∈ batch, j ∉ L k := by
    intro k j hj
    exact hok.notMem (by simp [haway j hj]) (fun hp => by simp [haway j hj] at hp) k
  have hoff : ∀ k, ∀ j ∈ L k, v'.next j = v.next j := fun k j hj =>
    next_eq_of_hold (hkept j fun hb => hfree k j hb hj)
  refine ⟨?_, hlen, fun j => ?_, fun c j => ?_, fun j hj => ?_⟩
  · rw [hhead]
    refine hok.chains.replace (fun k _ => hoff k) ?_ fun k hk j hj => ?_
    · exact Lib.seg_append.mpr ⟨v.head none, hseg, (hok.chains.seg none).congr (hoff none)⟩
    · rcases List.mem_append.mp hj with hj | hj
      · exact hfree k j hj
      · exact hok.chains.notMem_of_mem hj hk
  · rw [update_self, List.mem_append, hok.unsized]
    by_cases hj : j ∈ batch
    · simp [hj, (hgained j hj).1]
    · rw [show v'.place j = v.place j from congrArg Holding.place (hkept j hj)]
      simp [hj]
  · rw [update_of_ne (by simp), hok.sized]
    by_cases hj : j ∈ batch
    · simp [(hgained j hj).1, haway j hj]
    · rw [show v'.place j = v.place j from congrArg Holding.place (hkept j hj),
        show v'.sizeClass j = v.sizeClass j from congrArg Holding.sizeClass (hkept j hj),
        show v'.bits j = v.bits j from congrArg Holding.bits (hkept j hj)]
  · by_cases hb : j ∈ batch
    · exact (hgained j hb).2
    · rw [show v'.owner j = v.owner j from congrArg Holding.owner (hkept j hb)]
      exact hok.owner j ((congrArg Holding.place (hkept j hb)).symm.trans hj)

/-- One slab that has come to the thread. -/
theorem Ok.adopt_one (hok : v.Ok t L) (hgains : v.Gains {i} v') :
    Ok t { v' with
      owner := update v'.owner i (some t)
      next := update v'.next i (v'.head none)
      head := update v'.head none (some i)
      len := update v'.len none (v'.len none + 1) } (update L none ([i] ++ L none)) := by
  refine hok.adopt (fun j hj => ?_) (fun j hj => ?_) (fun j hj => ?_) ?_ ?_ ?_
  · exact hgains.away j (List.mem_singleton.mp hj)
  · obtain rfl := List.mem_singleton.mp hj
    exact ⟨hgains.gained j rfl, by simp⟩
  · have hne : j ≠ i := fun h => hj (List.mem_singleton.mpr h)
    rw [← hgains.kept j hne]
    simp [hold, hne]
  · simp [Seg, hgains.head]
  · simp [hgains.head]
  · rw [hgains.len]
    exact hok.len_prepend [i]

/-- A range of new slabs. -/
theorem Ok.adopt_range {n len : ℕ} (hok : v.Ok t L) (hn : n ≠ 0) (hlen : n ≤ len)
    (hempty : v.head none = none)
    (hgains : v.Gains {j | i.value ≤ j.value ∧ j.value < i.value + n} v') :
    Ok t { v'.linked t n i with
      head := update v'.head none (some i), len := update v'.len none len }
      (update L none (i.run n ++ L none)) := by
  have hhead : (i.run n).head? = some i := by
    cases n with
    | zero => exact absurd rfl hn
    | succ n => rfl
  refine hok.adopt (fun j hj => ?_) (fun j hj => ?_) (fun j hj => ?_) ?_ ?_ fun k => ?_
  · exact hgains.away j (Index.mem_run.mp hj)
  · exact ⟨hgains.gained j (Index.mem_run.mp hj), if_pos hj⟩
  · rw [← hgains.kept j fun h => hj (Index.mem_run.mpr h)]
    simp [hold, linked, hj]
  · rw [hhead, hempty]
    have hseg : Seg (v'.linked t n i).next (if n = 0 then none else some i) (i.run n) none :=
      Index.seg_run fun j hj => if_pos hj
    rwa [if_neg hn] at hseg
  · rw [hhead, hgains.head]
  · rw [hok.chains.nil_eq hempty, List.append_nil]
    cases k with
    | none => simpa [Index.length_run] using hlen
    | some c => simpa [hgains.len] using hok.len (some c)

/-- The first slabs of the unsized stack go to the global one. -/
theorem Ok.share (hok : v.Ok t L) {taken post : List (Index B)} (hl : L none = taken ++ post)
    (hhead : v'.head = update v.head none post.head?) {n : ℕ} (hn : post.length ≤ n)
    (hlen : v'.len = update v.len none n) (hnext : ∀ j ∉ taken, v'.next j = v.next j)
    (hplace : ∀ j, v'.place j = if j ∈ taken then .away else v.place j)
    (howner : ∀ j ∉ taken, v'.owner j = v.owner j) (hclass : v'.sizeClass = v.sizeClass)
    (hbits : v'.bits = v.bits) : Ok t v' (update L none post) := by
  have hsplit := hok.chains.split hl
  have hout : ∀ k, ∀ j ∈ update L none post k, j ∉ taken := fun k j hj =>
    ((hok.chains.mem_split hl).mp hj).2
  have htaken : ∀ j ∈ taken, v.place j = .unsized := fun j hj =>
    (hok.unsized j).mp (by rw [hl]; exact List.mem_append_left _ hj)
  refine ⟨?_, fun k => ?_, fun j => ?_, fun c j => ?_, fun j hj => ?_⟩
  · rw [hhead]
    exact hsplit.frame fun k j hj => hnext j (hout k j hj)
  · rw [hlen]
    cases k with
    | none => simpa using hn
    | some c => simpa using hok.len (some c)
  · rw [hok.chains.mem_split hl, hok.unsized, hplace]
    by_cases hj : j ∈ taken
    · simp [hj]
    · simp [hj]
  · rw [hok.chains.mem_split hl, hok.sized, hplace, hclass, hbits]
    by_cases hj : j ∈ taken
    · simp [hj, htaken j hj]
    · simp [hj]
  · rw [hplace] at hj
    split_ifs at hj with hb
    rw [howner j hb]
    exact hok.owner j hj

end View

end Cxlalloc
