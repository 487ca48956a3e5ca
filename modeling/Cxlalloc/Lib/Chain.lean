/-
Linked chains that share one `next` field.

An intrusive list stores its links in the elements, so every list of a program
that moves elements between lists is threaded through the same map
`next : I → Option I`.  A write to one link can then truncate or join lists that
look unrelated.  This file says what a family of such lists is and how the usual
surgeries act on the whole family.

`Seg next h xs t` reads: following `next` from `h` visits exactly `xs` and stops at
`t`.  A list is a segment that stops at `none`.  `Chains next head L` says that for
every list name `k` the chain from `head k` is `L k` and that no element is on two
lists.  Every surgery below is an instance of `Chains.replace`, which rewrites one
list and asks only that the links of the other lists are untouched.
-/
import Mathlib.Logic.Function.Basic
import Mathlib.Data.List.Nodup

namespace Lib

open Function

variable {I K : Type} {next next' : I → Option I} {h t m : Option I} {i : I} {xs ys : List I}

/-- Following `next` from `h` visits `xs` and stops at `t`. -/
def Seg (next : I → Option I) : Option I → List I → Option I → Prop
  | h, [], t => h = t
  | h, i :: xs, t => h = some i ∧ Seg next (next i) xs t

instance Seg.decidable [DecidableEq I] (next : I → Option I) (t : Option I) :
    (xs : List I) → (h : Option I) → Decidable (Seg next h xs t)
  | [], h => inferInstanceAs (Decidable (h = t))
  | i :: xs, h =>
    have := Seg.decidable next t xs (next i)
    inferInstanceAs (Decidable (h = some i ∧ Seg next (next i) xs t))

@[simp] theorem seg_nil : Seg next h [] t ↔ h = t := Iff.rfl

@[simp] theorem seg_cons : Seg next h (i :: xs) t ↔ h = some i ∧ Seg next (next i) xs t := Iff.rfl

theorem seg_append : Seg next h (xs ++ ys) t ↔ ∃ m, Seg next h xs m ∧ Seg next m ys t := by
  induction xs generalizing h with
  | nil => simp
  | cons i xs ih =>
    simp only [List.cons_append, seg_cons, ih]
    constructor
    · rintro ⟨rfl, m, hx, hy⟩
      exact ⟨m, ⟨rfl, hx⟩, hy⟩
    · rintro ⟨m, ⟨rfl, hx⟩, hy⟩
      exact ⟨rfl, m, hx, hy⟩

/-- Only the links of the visited elements matter. -/
theorem Seg.congr (hs : Seg next h xs t) (hn : ∀ i ∈ xs, next' i = next i) : Seg next' h xs t := by
  induction xs generalizing h with
  | nil => exact hs
  | cons i xs ih =>
    obtain ⟨rfl, hs⟩ := hs
    refine ⟨rfl, ?_⟩
    rw [hn i (by simp)]
    exact ih hs fun j hj => hn j (by simp [hj])

/-- Links that are changed where no path leads do not matter. -/
theorem Seg.of_avoids {S : Set I} (hn : ∀ i, i ∉ S → next' i = next i)
    (havoid : ∀ ys i, Seg next h ys (some i) → i ∉ S) (hs : Seg next' h xs t) :
    Seg next h xs t := by
  induction xs generalizing h with
  | nil => exact hs
  | cons i xs ih =>
    obtain ⟨rfl, hs⟩ := hs
    rw [hn i (havoid [] i rfl)] at hs
    exact ⟨rfl, ih (fun ys j hj => havoid (i :: ys) j ⟨rfl, hj⟩) hs⟩

/-- Following `next` from `h` leads to `i`. -/
def Reaches (next : I → Option I) (h : Option I) (i : I) : Prop :=
  ∃ xs, Seg next h xs (some i)

theorem not_reaches_none : ¬ Reaches next none i := by
  rintro ⟨xs, hs⟩
  cases xs with
  | nil => cases hs
  | cons j xs => cases hs.1

variable {v : Option I}

/-- The link behind `i` plays no part in getting to it. -/
theorem Reaches.of_update [DecidableEq I]
    (hr : Reaches (update next i v) h i) : Reaches next h i := by
  by_contra hnot
  obtain ⟨xs, hs⟩ := hr
  refine hnot ⟨xs, hs.of_avoids (S := {i}) (fun j hj => update_of_ne hj _ _) ?_⟩
  rintro ys j hj rfl
  exact hnot ⟨ys, hj⟩

/-- A chain that ends is determined by where it starts. -/
theorem Seg.unique (hx : Seg next h xs none) (hy : Seg next h ys none) : xs = ys := by
  induction xs generalizing h ys with
  | nil =>
    cases ys with
    | nil => rfl
    | cons j ys => rw [seg_nil.mp hx] at hy; exact absurd hy.1 (by simp)
  | cons i xs ih =>
    obtain ⟨rfl, hx⟩ := hx
    cases ys with
    | nil => exact absurd (seg_nil.mp hy) (by simp)
    | cons j ys =>
      obtain ⟨hij, hy⟩ := hy
      obtain rfl : i = j := by simpa using hij
      rw [ih hx hy]

/-- A chain that ends visits nothing twice: a repetition would start it over. -/
theorem Seg.nodup (hs : Seg next h xs none) : xs.Nodup := by
  induction xs generalizing h with
  | nil => exact List.nodup_nil
  | cons i xs ih =>
    obtain ⟨rfl, hs⟩ := hs
    refine List.nodup_cons.mpr ⟨fun hi => ?_, ih hs⟩
    obtain ⟨pre, post, rfl⟩ := List.append_of_mem hi
    obtain ⟨m, -, hm⟩ := seg_append.mp hs
    obtain ⟨-, hpost⟩ := hm
    have hlen := congrArg List.length (Seg.unique hs hpost)
    simp at hlen
    omega

/-- What can be reached is on the chain. -/
theorem Seg.mem_iff (hs : Seg next h xs none) : i ∈ xs ↔ ∃ ys, Seg next h ys (some i) := by
  induction xs generalizing h with
  | nil =>
    obtain rfl : h = none := hs
    refine ⟨by simp, ?_⟩
    rintro ⟨_ | ⟨j, ys⟩, hy⟩
    · cases hy
    · cases hy.1
  | cons j xs ih =>
    obtain ⟨rfl, hs⟩ := hs
    rw [List.mem_cons, ih hs]
    constructor
    · rintro (rfl | ⟨ys, hy⟩)
      · exact ⟨[], rfl⟩
      · exact ⟨j :: ys, rfl, hy⟩
    · rintro ⟨_ | ⟨k, ys⟩, hy⟩
      · exact .inl (Option.some.inj hy).symm
      · obtain ⟨hjk, hy⟩ := hy
        obtain rfl : j = k := Option.some.inj hjk
        exact .inr ⟨ys, hy⟩

/-- A chain that ends goes through every segment it starts with. -/
theorem Seg.split (hx : Seg next h xs (some i)) (hy : Seg next h ys none) :
    ∃ zs, ys = xs ++ i :: zs ∧ Seg next (next i) zs none := by
  induction xs generalizing h ys with
  | nil =>
    obtain rfl : h = some i := hx
    cases ys with
    | nil => cases hy
    | cons j ys =>
      obtain ⟨hij, hy⟩ := hy
      obtain rfl : i = j := Option.some.inj hij
      exact ⟨ys, rfl, hy⟩
  | cons k xs ih =>
    obtain ⟨rfl, hx⟩ := hx
    cases ys with
    | nil => cases hy
    | cons j ys =>
      obtain ⟨hkj, hy⟩ := hy
      obtain rfl : k = j := Option.some.inj hkj
      obtain ⟨zs, rfl, hz⟩ := ih hx hy
      exact ⟨zs, rfl, hz⟩

theorem Seg.head_eq (hs : Seg next h xs none) : h = xs.head? := by
  cases xs with
  | nil => exact hs
  | cons i xs => exact hs.1

variable {pre post : List I}

/-- The link of an element leads to the rest of the chain. -/
theorem Seg.next_eq (hs : Seg next h (pre ++ i :: post) none) : next i = post.head? := by
  obtain ⟨m, -, hm⟩ := seg_append.mp hs
  exact hm.2.head_eq

/-- Two chains that visit the same have the same links. -/
theorem Seg.next_congr (hs : Seg next h xs none) (hs' : Seg next' h xs none) (hi : i ∈ xs) :
    next' i = next i := by
  obtain ⟨pre, post, rfl⟩ := List.append_of_mem hi
  exact hs'.next_eq.trans hs.next_eq.symm

section Update

variable [DecidableEq I]

theorem Seg.update_off (hs : Seg next h xs t) (hi : i ∉ xs) :
    Seg (update next i v) h xs t := by
  refine hs.congr fun j hj => update_of_ne ?_ _ _
  rintro rfl
  exact hi hj

/-- Rewriting the last link of a segment moves where it stops. -/
theorem Seg.update_last {pre : List I} (hs : Seg next h (pre ++ [i]) t)
    (hi : i ∉ pre) : Seg (update next i v) h (pre ++ [i]) v := by
  obtain ⟨m, hpre, hm, -⟩ := seg_append.mp hs
  refine seg_append.mpr ⟨m, hpre.update_off hi, hm, ?_⟩
  simp

end Update

/-- The lists `L` are threaded through `next` from `head`, and share no element. -/
structure Chains (next : I → Option I) (head : K → Option I) (L : K → List I) : Prop where
  seg : ∀ k, Seg next (head k) (L k) none
  disjoint : ∀ k k' i, i ∈ L k → i ∈ L k' → k = k'

namespace Chains

variable {head : K → Option I} {L : K → List I} {k k' : K}

theorem head_eq (c : Chains next head L) (k : K) : head k = (L k).head? := (c.seg k).head_eq

theorem nodup (c : Chains next head L) (k : K) : (L k).Nodup := (c.seg k).nodup

/-- A write to a link that no list uses changes nothing. -/
theorem frame (c : Chains next head L) (hn : ∀ k, ∀ i ∈ L k, next' i = next i) :
    Chains next' head L :=
  ⟨fun k => (c.seg k).congr (hn k), c.disjoint⟩

theorem cons_eq (c : Chains next head L) (hh : head k = some i) : ∃ ys, L k = i :: ys := by
  rw [c.head_eq] at hh
  cases hl : L k with
  | nil => rw [hl] at hh; simp at hh
  | cons j ys => rw [hl] at hh; exact ⟨ys, by simpa using hh⟩

theorem nil_eq (c : Chains next head L) (hh : head k = none) : L k = [] := by
  rw [c.head_eq] at hh
  simpa using hh

/-- The rest of a list that starts with `i` hangs off the link of `i`. -/
theorem next_head (c : Chains next head L) (hl : L k = i :: xs) : next i = xs.head? := by
  have hs := c.seg k
  rw [hl] at hs
  exact hs.2.head_eq

theorem notMem_of_mem (c : Chains next head L) {k k' : K} (hi : i ∈ L k) (hk : k' ≠ k) : i ∉ L k' :=
  fun hi' => hk (c.disjoint k' k i hi' hi)

variable [DecidableEq K]

/-- Rewriting one list, while the links of the others stay as they are. -/
theorem replace (c : Chains next head L) (hn : ∀ k', k' ≠ k → ∀ i ∈ L k', next' i = next i)
    (hs : Seg next' h xs none) (hd : ∀ k', k' ≠ k → ∀ i ∈ xs, i ∉ L k') :
    Chains next' (update head k h) (update L k xs) := by
  constructor
  · intro k'
    by_cases hk : k' = k
    · subst hk; simpa using hs
    · simpa [hk] using (c.seg k').congr (hn k' hk)
  · intro k₁ k₂ i h₁ h₂
    by_cases hk₁ : k₁ = k <;> by_cases hk₂ : k₂ = k
    · rw [hk₁, hk₂]
    · subst hk₁; simp only [update_self, update_of_ne hk₂] at h₁ h₂
      exact absurd h₂ (hd k₂ hk₂ i h₁)
    · subst hk₂; simp only [update_self, update_of_ne hk₁] at h₁ h₂
      exact absurd h₁ (hd k₁ hk₁ i h₂)
    · simp only [update_of_ne hk₁, update_of_ne hk₂] at h₁ h₂
      exact c.disjoint k₁ k₂ i h₁ h₂

/-- Take a first part off a list.  The links inside it are not touched. -/
theorem split (c : Chains next head L) (hl : L k = xs ++ ys) :
    Chains next (update head k ys.head?) (update L k ys) := by
  have hs := c.seg k
  rw [hl] at hs
  obtain ⟨m, -, hm⟩ := seg_append.mp hs
  refine c.replace (fun _ _ _ _ => rfl) (hm.head_eq ▸ hm) fun k' hk' i hi => ?_
  exact c.notMem_of_mem (k := k) (by simp [hl, hi]) hk'

theorem pop (c : Chains next head L) (hl : L k = i :: xs) :
    Chains next (update head k xs.head?) (update L k xs) := by
  have hl' : L k = [i] ++ xs := hl
  exact c.split hl'

/-! ### Where the elements are afterwards -/

variable {j : I}

theorem mem_split (c : Chains next head L) (hl : L k = xs ++ ys) {k' : K} :
    j ∈ update L k ys k' ↔ j ∈ L k' ∧ j ∉ xs := by
  have hnd := c.nodup k
  rw [hl] at hnd
  by_cases hk : k' = k
  · subst hk
    rw [update_self, hl, List.mem_append]
    constructor
    · exact fun hj => ⟨Or.inr hj, fun hx => List.disjoint_of_nodup_append hnd hx hj⟩
    · rintro ⟨hj | hj, hx⟩
      · exact absurd hj hx
      · exact hj
  · rw [update_of_ne hk]
    refine ⟨fun hj => ⟨hj, fun hx => ?_⟩, And.left⟩
    exact c.notMem_of_mem (k := k) (by simp [hl, hx]) hk hj

theorem mem_prepend {zs : List I} {k' : K} :
    j ∈ update L k (zs ++ L k) k' ↔ j ∈ L k' ∨ (j ∈ zs ∧ k' = k) := by
  by_cases hk : k' = k
  · subst hk
    simp [or_comm]
  · simp [hk]

theorem mem_push {k' : K} :
    j ∈ update L k (i :: L k) k' ↔ j ∈ L k' ∨ (j = i ∧ k' = k) := by
  rw [← List.singleton_append, mem_prepend, List.mem_singleton]

/-! ### Surgery on the links -/

variable [DecidableEq I]

/-- Put a segment of elements that are on no list in front of a list. -/
theorem prepend (c : Chains next head L) {pre : List I} (hs : Seg next h (pre ++ [i]) t)
    (hi : i ∉ pre) (hfree : ∀ k, ∀ j ∈ pre ++ [i], j ∉ L k) :
    Chains (update next i (head k)) (update head k h)
      (update L k (pre ++ [i] ++ L k)) := by
  have hoff : ∀ k', ∀ j ∈ L k', update next i (head k) j = next j := by
    intro k' j hj
    refine update_of_ne ?_ _ _
    rintro rfl
    exact hfree k' j (by simp) hj
  refine c.replace (fun k' _ => hoff k') ?_ ?_
  · exact seg_append.mpr ⟨head k, hs.update_last hi, (c.seg k).congr (hoff k)⟩
  · intro k' hk' j hj
    rcases List.mem_append.mp hj with hj | hj
    · exact hfree k' j hj
    · exact c.notMem_of_mem hj hk'

theorem push (c : Chains next head L) (hfree : ∀ k, i ∉ L k) :
    Chains (update next i (head k)) (update head k (some i))
      (update L k (i :: L k)) := by
  have hs : Seg next (some i) ([] ++ [i]) (next i) := by simp
  exact c.prepend hs (by simp) (by simpa using hfree)

/-- Unlink an element behind another one. -/
theorem remove (c : Chains next head L) {p : I} (hl : L k = pre ++ p :: i :: post) :
    Chains (update next p post.head?) head
      (update L k (pre ++ p :: post)) := by
  have hs := c.seg k
  have hnd := c.nodup k
  rw [hl] at hs hnd
  obtain ⟨m, hpre, hm, hi, hpost⟩ := seg_append.mp hs
  have hpre' : p ∉ pre := fun hp =>
    List.disjoint_of_nodup_append hnd hp (by simp)
  have hpost' : p ∉ post := by
    have := (List.nodup_append.mp hnd).2.1
    simp only [List.nodup_cons, List.mem_cons, not_or] at this
    exact this.1.2
  have hrep : Chains (update next p post.head?) (update head k (head k))
      (update L k (pre ++ p :: post)) := c.replace ?_ ?_ ?_
  · rwa [update_eq_self] at hrep
  · intro k' hk' j hj
    refine update_of_ne ?_ _ _
    rintro rfl
    exact c.notMem_of_mem (k := k) (by simp [hl]) hk' hj
  · refine seg_append.mpr ⟨m, hpre.update_off hpre', hm, ?_⟩
    rw [update_self]
    exact (hpost.head_eq ▸ hpost).update_off hpost'
  · intro k' hk' j hj
    refine c.notMem_of_mem (k := k) ?_ hk'
    rw [hl]
    simp only [List.mem_append, List.mem_cons] at hj ⊢
    tauto

/-! ### Dropping one element, or moving it to another list -/

/-- The lists without `i`, which is on `k`. -/
def drop (L : K → List I) (i : I) (k : K) : K → List I :=
  update L k ((L k).erase i)

/-- The lists with `i` moved from `k` to the front of `k'`. -/
def move (L : K → List I) (i : I) (k k' : K) : K → List I :=
  update (drop L i k) k' (i :: L k')

theorem mem_drop (c : Chains next head L) (hi : i ∈ L k) {l : K} :
    j ∈ drop L i k l ↔ j ∈ L l ∧ j ≠ i := by
  by_cases hl : l = k
  · subst hl
    rw [drop, update_self, (c.nodup l).mem_erase_iff, and_comm]
  · rw [drop, update_of_ne hl]
    refine ⟨fun hj => ⟨hj, ?_⟩, And.left⟩
    rintro rfl
    exact c.notMem_of_mem hi hl hj

theorem mem_move (c : Chains next head L) (hi : i ∈ L k) (hk : k ≠ k') {l : K} :
    j ∈ move L i k k' l ↔ (j ∈ L l ∧ j ≠ i) ∨ (j = i ∧ l = k') := by
  have hdrop : drop L i k k' = L k' := update_of_ne hk.symm _ _
  rw [move, ← hdrop, mem_push, c.mem_drop hi]

theorem length_drop (hi : i ∈ L k) : (drop L i k k).length + 1 = (L k).length := by
  rw [drop, update_self, List.length_erase_of_mem hi]
  have := List.length_pos_of_mem hi
  omega

theorem drop_head (c : Chains next head L) (hl : L k = i :: xs) :
    Chains next (update head k (next i)) (drop L i k) := by
  have hd : drop L i k = update L k xs := by rw [drop, hl, List.erase_cons_head]
  rw [hd, c.next_head hl]
  exact c.pop hl

/-- Pop an element and push it elsewhere. -/
theorem move_head (c : Chains next head L) (hl : L k = i :: xs) (hk : k ≠ k') :
    Chains (update next i (head k'))
      (update (update head k (next i)) k' (some i)) (move L i k k') := by
  have hdrop : drop L i k k' = L k' := update_of_ne hk.symm _ _
  have hhead : update head k (next i) k' = head k' := update_of_ne hk.symm _ _
  have hi : i ∈ L k := by simp [hl]
  rw [move, ← hdrop, ← hhead]
  exact (c.drop_head hl).push fun l hl' => ((c.mem_drop hi).mp hl').2 rfl

/-- Unlink an element behind another one and push it elsewhere. -/
theorem move_mid (c : Chains next head L) {p : I} (hl : L k = pre ++ p :: i :: post) (hk : k ≠ k') :
    Chains (update (update next p (next i)) i (head k'))
      (update head k' (some i)) (move L i k k') := by
  have hs := c.seg k
  have hnd := c.nodup k
  rw [hl] at hs hnd
  have hsplit : pre ++ p :: i :: post = (pre ++ [p]) ++ i :: post := by simp
  rw [hsplit] at hs hnd
  have hnotin : i ∉ pre ++ [p] := fun hi =>
    List.disjoint_of_nodup_append hnd hi (by simp)
  have herase : (L k).erase i = pre ++ p :: post := by
    rw [hl, hsplit, List.erase_append_right _ hnotin, List.erase_cons_head]
    simp
  have hi : i ∈ L k := by simp [hl]
  have hdrop : drop L i k k' = L k' := update_of_ne hk.symm _ _
  have hrem := c.remove hl
  rw [← herase, ← hs.next_eq] at hrem
  rw [move, ← hdrop]
  exact hrem.push fun l hl' => ((c.mem_drop hi).mp hl').2 rfl

end Chains

end Lib
