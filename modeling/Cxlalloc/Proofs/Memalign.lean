/-
The alignment of what `cxlalloc_memalign` returns.

The alignment is never passed down.  It is used once, to pad the size, and what comes of
it depends on the heap that serves the padded size.  In the small and the large heap the
class size is a multiple of the alignment, and so is the slab size.  The huge heap places a
range at the lower end of a free interval, of which only one thing is known in every
state: it starts at a page.
-/
import Cxlalloc.Proofs.Allocator
import Cxlalloc.Proofs.HugeFocus

namespace Cxlalloc

open Lib.Prog
open Cxlalloc.Bracket
open Relation
open Function

/-! ### Whole pages -/

/-- A set of bytes that is made of whole pages. -/
def WholePages (free : Finset ℕ) : Prop :=
  ∀ x ∈ free, ∀ y, y / sizePage = x / sizePage → y ∈ free

namespace WholePages

variable {free free' : Finset ℕ} {lower size offset : ℕ}

theorem empty : WholePages ∅ := by simp [WholePages]

theorem union (h : WholePages free) (h' : WholePages free') : WholePages (free ∪ free') := by
  intro x hx y hy
  rcases Finset.mem_union.mp hx with hx | hx
  · exact Finset.mem_union_left _ (h x hx y hy)
  · exact Finset.mem_union_right _ (h' x hx y hy)

theorem sdiff (h : WholePages free) (h' : WholePages free') : WholePages (free \ free') := by
  intro x hx y hy
  obtain ⟨hx, hx'⟩ := Finset.mem_sdiff.mp hx
  exact Finset.mem_sdiff.mpr ⟨h x hx y hy, fun hy' => hx' (h' y hy' x hy.symm)⟩

theorem Ico (hlower : sizePage ∣ lower) (hsize : sizePage ∣ size) :
    WholePages (Finset.Ico lower (lower + size)) := by
  obtain ⟨l, rfl⟩ := hlower
  obtain ⟨n, rfl⟩ := hsize
  intro x hx y hy
  rw [Finset.mem_Ico, sizePage] at *
  omega

/-- The lower end of a free interval is the start of a page. -/
theorem firstFit_dvd (h : WholePages free) (hfit : Dram.firstFit free size = some offset) :
    sizePage ∣ offset := by
  rw [Dram.firstFit] at hfit
  split at hfit
  · rename_i hne
    obtain rfl := Option.some.inj hfit
    obtain ⟨hmem, hlow, -⟩ := Finset.mem_filter.mp (Finset.min'_mem _ hne)
    by_contra hdvd
    have hmod : (Dram.fits free size).min' hne % 4096 ≠ 0 :=
      fun h0 => hdvd (Nat.dvd_of_mod_eq_zero h0)
    -- the byte in front of it would be of the same page
    refine hlow ((Dram.fits free size).min' hne - 1) (h _ hmem _ ?_) ?_
    · rw [sizePage]
      omega
    · omega
  · cases hfit

end WholePages

/-! ### The huge heap is cut at pages -/

section Paged

variable {T A : Type} {h h' : Huge T A} {id : T}

/-- Free sets are made of whole pages, and so is every range on a list. -/
structure Huge.Paged (h : Huge T A) : Prop where
  free : ∀ t, WholePages (h.dram t).free
  desc : ∀ t, ∀ a ∈ h.list t, sizePage ∣ (h.desc a).offset ∧ sizePage ∣ (h.desc a).size

namespace Huge.Paged

theorem zeroed {blank : Descriptor} : (Huge.zeroed blank : Huge T A).Paged where
  free _ := .empty
  desc t a ha := by simp [Huge.zeroed] at ha

theorem congr (hp : h.Paged) (hdram : h'.dram = h.dram) (hlist : h'.list = h.list)
    (hdesc : h'.desc = h.desc) : h'.Paged where
  free t := hdram ▸ hp.free t
  desc t a ha := by
    rw [hdesc]
    exact hp.desc t a (hlist ▸ ha)

/-- One thread's free set changes. -/
theorem withDram [DecidableEq T] (hp : h.Paged) {d : Dram} (hd : WholePages d.free) :
    Paged { h with dram := update h.dram id d } where
  free t := by
    by_cases ht : t = id
    · subst ht
      simpa only [update_self] using hd
    · simpa only [update_of_ne ht] using hp.free t
  desc := hp.desc

/-- A claim writes nothing but the slot and the hint. -/
theorem claimSlot_ok {slotCount n i slot : ℕ} (hx : h.claimSlot id slotCount n i = .ok (slot, h')) :
    ∃ slots hint, h' = { h with slots := slots, hint := hint } := by
  induction n generalizing i with
  | zero => cases hx
  | succ n ih =>
    rw [Huge.claimSlot] at hx
    split at hx
    · split at hx
      · obtain ⟨-, rfl⟩ := ok_inj hx
        exact ⟨_, _, rfl⟩
      · exact ih hx
    · cases hx

variable [FinEnum T]

theorem claim (hp : h.Paged) {size : ℕ} (hx : h.claim id size = .ok h') : h'.Paged := by
  rw [Huge.claim] at hx
  dsimp only at hx
  obtain ⟨⟨slot, h₁⟩, hslot, hx⟩ := bind_eq_ok hx
  obtain rfl := Except.ok.inj hx
  obtain ⟨slots, hint, rfl⟩ := claimSlot_ok hslot
  have hslot : sizePage ∣ sizeSlot := by decide
  have hp₁ : Paged { h with slots := slots, hint := hint } := hp.congr rfl rfl rfl
  refine hp₁.withDram ?_
  exact (hp.free id).union (.Ico (hslot.mul_left _) (hslot.mul_left _))

theorem allocateRange (hp : h.Paged) {size n : ℕ} {d : Descriptor} (hsize : sizePage ∣ size)
    (hx : h.allocateRange id size n = .ok (d, h')) :
    h'.Paged ∧ sizePage ∣ d.offset ∧ sizePage ∣ d.size := by
  induction n generalizing h with
  | zero => cases hx
  | succ n ih =>
    rcases Huge.allocateRange_succ hx with ⟨h₁, hclaim, hx⟩ | ⟨offset, hfit, rfl, rfl⟩
    · exact ih (hp.claim hclaim) hx
    · have hoffset := (hp.free id).firstFit_dvd hfit
      exact ⟨hp.withDram ((hp.free id).sdiff (.Ico hoffset hsize)), hoffset, hsize⟩

variable [DecidableEq A]

theorem reuseOne (hp : h.Paged) {a : A} (ha : a ∈ h.list id) (safe : Option A) :
    (Huge.reuseOne id (h, safe) a).1.Paged ∧
      (Huge.reuseOne id (h, safe) a).1.list = h.list := by
  rw [Huge.reuseOne]
  split
  · exact ⟨hp, rfl⟩
  · split
    · exact ⟨hp, rfl⟩
    · obtain ⟨hoffset, hsize⟩ := hp.desc id a ha
      have hfree : WholePages ((h.dram id).uncover (h.desc a).offset (h.desc a).size).free :=
        (hp.free id).union (.Ico hoffset hsize)
      refine ⟨⟨(hp.withDram hfree).free, fun t b hb => ?_⟩, rfl⟩
      by_cases hba : b = a
      · subst hba
        simpa only [update_self] using ⟨hoffset, hsize⟩
      · simpa only [update_of_ne hba] using hp.desc t b hb
  · exact ⟨hp, rfl⟩

theorem reuse (hp : h.Paged) (id : T) : (h.reuse id).1.Paged := by
  have hfold : ∀ (l : List A) (h : Huge T A) (safe : Option A), h.Paged →
      (∀ a ∈ l, a ∈ h.list id) → (l.foldl (Huge.reuseOne id) (h, safe)).1.Paged := by
    intro l
    induction l with
    | nil => exact fun h safe hp _ => hp
    | cons a l ih =>
      intro h safe hp hl
      have hone := hp.reuseOne (hl a List.mem_cons_self) safe
      rw [List.foldl_cons]
      generalize Huge.reuseOne id (h, safe) a = r at hone
      exact ih r.1 r.2 hone.1 fun b hb => hone.2 ▸ hl b (List.mem_cons_of_mem a hb)
  exact hfold _ h none hp fun _ ha => ha

theorem allocate (hp : h.Paged) {validate reuse : Bool} {size offset : ℕ} {out : A}
    (hsize : sizePage ∣ size) (hx : h.allocate validate id size out reuse = .ok (offset, h')) :
    h'.Paged ∧ sizePage ∣ offset := by
  obtain ⟨hz, d, h₁, hz', hrange, rfl, rfl⟩ := Huge.allocate_ok hx
  have hp₀ : Paged { h with hazards := hz } := hp.congr rfl rfl rfl
  obtain ⟨hp₁, hoffset, hdsize⟩ := hp₀.allocateRange hsize hrange
  refine ⟨⟨hp₁.free, fun t a ha => ?_⟩, hoffset⟩
  by_cases hout : a = out
  · subst hout
    simpa only [update_self] using ⟨hoffset, hdsize⟩
  · simp only [update_of_ne hout]
    refine hp₁.desc t a ?_
    dsimp only at ha
    by_cases ht : t = id
    · subst ht
      rw [update_self] at ha
      split at ha
      · exact ha
      · exact (List.mem_cons.mp ha).resolve_left hout
    · rwa [update_of_ne ht] at ha

theorem release (hp : h.Paged) {offset : ℕ} (hx : h.free id offset = .ok h') : h'.Paged := by
  obtain ⟨hz, hrefresh, -⟩ := Huge.refresh_eq h id
  rw [Huge.free, hrefresh] at hx
  dsimp only at hx
  split at hx
  · cases hx
  · rename_i a ha
    obtain rfl := Except.ok.inj hx
    refine ⟨hp.free, fun t b hb => ?_⟩
    by_cases hba : b = a
    · subst hba
      simpa only [update_self] using hp.desc t b hb
    · simpa only [update_of_ne hba] using hp.desc t b hb

end Huge.Paged

end Paged

/-! ### Every state -/

section Runs

variable {T : Type} [FinEnum T] {g : Regions} {cfg : Config} {s s' : Alloc T} {t : T} {p size : ℕ}

theorem sizePage_dvd_nextMultipleOf : sizePage ∣ nextMultipleOf size sizePage :=
  dvd_mul_left _ _

/-- The huge heap answers with the start of a page. -/
theorem Alloc.allocateHuge_paged (hp : s.huge.Paged)
    (hx : s.allocateHuge g cfg t size = .ok (p, s')) :
    s'.huge.Paged ∧ ∃ offset, p = g.huge + offset ∧ sizePage ∣ offset := by
  obtain ⟨-, h₁, safe, offset, h, hreuse, rfl, hcase⟩ := Alloc.allocateHuge_cases hx
  have hp₁ : h₁.Paged := by
    have := hp.reuse t
    rwa [hreuse] at this
  rcases hcase with ⟨place, -, hal, rfl⟩ | ⟨i, b, s₁, o, -, hpeek, hal, hpop⟩
  · obtain ⟨hp', hoffset⟩ := hp₁.allocate sizePage_dvd_nextMultipleOf hal
    exact ⟨hp', offset, rfl, hoffset⟩
  · obtain ⟨m, -, rfl⟩ := Alloc.onSmall_ok hpeek
    obtain ⟨m', -, rfl⟩ := Alloc.onSmall_ok hpop
    obtain ⟨hp', hoffset⟩ := Huge.Paged.allocate hp₁ sizePage_dvd_nextMultipleOf hal
    exact ⟨hp', offset, rfl, hoffset⟩

theorem Alloc.allocateUntyped_paged (hp : s.huge.Paged)
    (hx : s.allocateUntyped g cfg t size = .ok (p, s')) : s'.huge.Paged := by
  rcases Alloc.allocateUntyped_cases hx with ⟨c, -, hal, -⟩ | ⟨c, o, s₁, -, hal, -, rfl⟩ |
    ⟨c, -, -, hal, -⟩ | ⟨c, o, -, -, hal, -⟩ | ⟨-, -, hal⟩
  · obtain ⟨m, -, rfl⟩ := Alloc.onSmall_ok hal
    exact hp
  · obtain ⟨m, -, rfl⟩ := Alloc.onSmall_ok hal
    exact hp
  · obtain ⟨m, -, rfl⟩ := Alloc.onLarge_ok hal
    exact hp
  · obtain ⟨m, -, rfl⟩ := Alloc.onLarge_ok hal
    exact hp
  · exact (Alloc.allocateHuge_paged hp hal).1

theorem Alloc.freeUntyped_paged (hp : s.huge.Paged)
    (hx : s.freeUntyped g cfg t p = .ok s') : s'.huge.Paged := by
  rcases Alloc.freeUntyped_cases hx with ⟨o, s₁, -, hfree, rfl⟩ | ⟨o, -, -, hfree⟩ | ⟨-, -, hfree⟩
  · obtain ⟨m, -, rfl⟩ := Alloc.onSmall_ok hfree
    exact hp
  · obtain ⟨m, -, rfl⟩ := Alloc.onLarge_ok hfree
    exact hp
  · rw [Alloc.freeHugeUntyped] at hfree
    split at hfree
    · obtain rfl := Except.ok.inj hfree
      exact hp
    · rename_i offset _
      obtain ⟨h, hhuge, hfree⟩ := bind_eq_ok hfree
      obtain rfl := Except.ok.inj hfree
      exact hp.release hhuge

namespace AllocSession

/-- One completed call, wherever it leaves the bump indices. -/
def Completes (g : Regions) (cfg : Config) (s s' : AllocSession T) : Prop :=
  ∃ c : AllocCall T, s.Legal c ∧ s.call g cfg c = .ok s'

theorem paged_step {s s' : AllocSession T} (hp : s.alloc.huge.Paged)
    (hstep : Completes g cfg s s') : s'.alloc.huge.Paged := by
  obtain ⟨c, -, hcall⟩ := hstep
  cases c with
  | allocate t size =>
    rw [AllocSession.call] at hcall
    split at hcall
    · rename_i p alloc hal
      obtain rfl := Except.ok.inj hcall
      exact Alloc.allocateUntyped_paged hp hal
    · cases hcall
  | free t p =>
    rw [AllocSession.call] at hcall
    split at hcall
    · rename_i alloc hfree
      obtain rfl := Except.ok.inj hcall
      exact Alloc.freeUntyped_paged hp hfree
    · cases hcall

theorem paged_run {blank : Descriptor} {s : AllocSession T}
    (hrun : ReflTransGen (Completes g cfg) (zeroed blank) s) : s.alloc.huge.Paged := by
  induction hrun with
  | refl => exact .zeroed
  | tail _ hstep ih => exact paged_step ih hstep

end AllocSession

/-! ### The alignment of a class -/

section Classes

variable {alignment : ℕ}

/-- A block is as far into the region as slabs and blocks make it. -/
theorem Data.dvd_offsetToPointer {B : Type} [Bracket B] {d : Data B} {c : B} {i : Index B} {b : Bit}
    (hstart : alignment ∣ d.start) (hslab : alignment ∣ sizeSlab B) (hsize : alignment ∣ Bracket.size c) :
    alignment ∣ d.offsetToPointer (Offset.fromBlock c i b) := by
  have hptr := d.offsetToPointer_eq (o := Offset.fromBlock c i b)
  rw [Offset.fromBlock_value] at hptr
  refine (Nat.dvd_add_left hslab).mp (hptr ▸ ?_)
  exact Nat.dvd_add hstart (Nat.dvd_add (hslab.mul_left _) (hsize.mul_left _))

/-- A small class that holds a multiple of the alignment is itself one. -/
theorem Small.dvd_size {c : Small} (hpow : ∃ k, alignment = 2 ^ k) (hpos : 0 < size)
    (hdvd : alignment ∣ size) (hnew : Small.new size = some c) :
    alignment ∣ Bracket.sizeSlab Small ∧ alignment ∣ Bracket.size c := by
  obtain ⟨k, rfl⟩ := hpow
  have hmax : size ≤ 1016 := by
    rw [Small.new] at hnew
    split at hnew
    · assumption
    · cases hnew
  have hk : k < 10 := by
    by_contra hk
    have := Nat.pow_le_pow_right (n := 2) (by decide) (Nat.le_of_not_lt hk)
    have := Nat.le_of_dvd hpos hdvd
    omega
  constructor
  · exact (Nat.pow_dvd_pow 2 (show k ≤ 15 by omega)).trans (by decide)
  · show 2 ^ k ∣ c.value.val * 8
    rw [Small.new_value hnew]
    rcases Nat.le_total k 3 with hle | hle
    · exact ((Nat.pow_dvd_pow 2 hle).trans (by decide)).mul_left _
    · -- the padded size is already a multiple of 8
      have h8 : 8 ∣ size := (Nat.pow_dvd_pow 2 hle).trans hdvd
      have hsame : nextMultipleOf size 8 = size := by
        rw [nextMultipleOf]
        omega
      rwa [hsame]

/-- A large class is a power of two at least as large as the alignment. -/
theorem Large.dvd_size {c : Large} (hpow : ∃ k, alignment = 2 ^ k) (hpos : 0 < size)
    (hdvd : alignment ∣ size) (hnew : Large.new size = some c) :
    alignment ∣ Bracket.sizeSlab Large ∧ alignment ∣ Bracket.size c := by
  obtain ⟨k, rfl⟩ := hpow
  have hle := (Nat.le_of_dvd hpos hdvd).trans (Large.le_size_new hnew)
  have hsize : Bracket.size c = 2 ^ (10 + c.value.val) := by
    rw [pow_add, ← Nat.shiftLeft_eq]
    rfl
  have hk : k ≤ 10 + c.value.val := (Nat.pow_le_pow_iff_right (by decide)).mp (hsize ▸ hle)
  have hlt := c.value.isLt
  constructor
  · exact (Nat.pow_dvd_pow 2 (show k ≤ 19 by omega)).trans (by decide)
  · rw [hsize]
    exact Nat.pow_dvd_pow 2 hk

variable {B R : Type} [Bracket B] {c : B}

theorem Heap.yields_pop {i : Index B} {b : Bit} :
    (Heap.pop cfg t c i b : Code T B R _).Yields (· = Offset.fromBlock c i b) := by
  rw [Heap.pop]
  refine .bind fun _ => .bind fun _ => .bind fun free => .bind fun _ => ?_
  split
  · exact .bind fun _ => .bind fun _ => .bind fun _ => rfl
  · rfl

/-- Whatever the memory is like, a block is of the class that was asked for. -/
theorem Heap.yields_allocateBlock [DecidableEq B] [FromState B R] :
    (Heap.allocateBlock cfg t c : Code T B R _).Yields fun r =>
      ∀ o, r = some o → ∃ i b, o = Offset.fromBlock c i b := by
  rw [Heap.allocateBlock]
  refine .bind fun r => ?_
  rcases r with _ | ⟨i, b⟩
  · intro o ho
    cases ho
  · refine .bind_of_yields Heap.yields_pop fun o ho => ?_
    intro o' ho'
    exact ⟨i, b, (Option.some.inj ho').symm.trans ho⟩

end Classes

/-! ### `cxlalloc_memalign` -/

theorem Alloc.Layout.fromSizeAlign_eq_some {alignment : ℕ} {layout : Alloc.Layout}
    (h : Alloc.Layout.fromSizeAlign size alignment = some layout) :
    (∃ k, alignment = 2 ^ k) ∧ layout = ⟨size, alignment⟩ := by
  rw [Alloc.Layout.fromSizeAlign] at h
  split at h
  · rename_i hok
    exact ⟨⟨_, hok.1.symm⟩, (Option.some.inj h).symm⟩
  · cases h

/-- **Alignment.**  In every state that calls lead to, a pointer from `cxlalloc_memalign` has
the alignment, if the padded size is one of the small or large heap, or the alignment is at
most a page. -/
theorem memalign_aligned {blank : Descriptor} {s : AllocSession T}
    (hrun : ReflTransGen (AllocSession.Completes g cfg) (AllocSession.zeroed blank) s)
    {alignment : ℕ} (hsize : 1 ≤ size) (hsmall : alignment ∣ g.small.start)
    (hlarge : alignment ∣ g.large.start) (hhuge : alignment ∣ g.huge)
    (hwhen : nextMultipleOf size alignment ≤ 2 ^ 19 ∨ alignment ≤ 4096)
    (hx : s.alloc.memalign g cfg t size alignment = .ok (p, s')) : alignment ∣ p := by
  rw [Alloc.memalign] at hx
  split at hx
  · cases hx
  rename_i layout hlayout
  obtain ⟨hpow, rfl⟩ := Alloc.Layout.fromSizeAlign_eq_some hlayout
  rw [Alloc.Layout.paddedSize] at hx
  dsimp only at hx
  have halign : 0 < alignment := by
    obtain ⟨k, rfl⟩ := hpow
    exact Nat.two_pow_pos k
  have hdvd : alignment ∣ nextMultipleOf size alignment := dvd_mul_left _ _
  have hpos : 0 < nextMultipleOf size alignment := hsize.trans (le_nextMultipleOf size halign)
  rcases Alloc.allocateUntyped_cases hx with ⟨c, -, -, rfl⟩ | ⟨c, o, s₁, hnew, hal, rfl, -⟩ |
    ⟨c, -, -, -, rfl⟩ | ⟨c, o, -, hnew, hal, rfl⟩ | ⟨-, hnew, hal⟩
  · exact dvd_zero _
  · obtain ⟨m, hexec, -⟩ := Alloc.onSmall_ok hal
    obtain ⟨i, b, rfl⟩ := Heap.yields_allocateBlock.exec hexec o rfl
    obtain ⟨hslab, hclass⟩ := Small.dvd_size hpow hpos hdvd hnew
    exact Data.dvd_offsetToPointer hsmall hslab hclass
  · exact dvd_zero _
  · obtain ⟨m, hexec, -⟩ := Alloc.onLarge_ok hal
    obtain ⟨i, b, rfl⟩ := Heap.yields_allocateBlock.exec hexec o rfl
    obtain ⟨hslab, hclass⟩ := Large.dvd_size hpow hpos hdvd hnew
    exact Data.dvd_offsetToPointer hlarge hslab hclass
  · obtain ⟨-, offset, rfl, hpage⟩ := Alloc.allocateHuge_paged (AllocSession.paged_run hrun) hal
    have hbig : ¬nextMultipleOf size alignment ≤ 2 ^ 19 := by
      intro hle
      rw [Large.new, if_pos (show _ ≤ Large.sizeMax from hle)] at hnew
      cases hnew
    obtain ⟨k, rfl⟩ := hpow
    have hk : k ≤ 12 := (Nat.pow_le_pow_iff_right (by decide)).mp (hwhen.resolve_left hbig)
    exact Nat.dvd_add hhuge ((Nat.pow_dvd_pow 2 hk).trans hpage)

end Runs

/-! ### Two ranges of the huge heap -/

section TwoRanges

variable {T A : Type} [FinEnum T] {h : Huge T A} {id : T}

theorem Huge.refresh_of_live (hlive : ∀ t, ∀ a ∈ h.list t, (h.desc a).state = .live) :
    h.refresh id = h := by
  have hfold : ∀ l : List A, (∀ a ∈ l, (h.desc a).state = .live) →
      l.foldl (Huge.refreshOne id) h = h := by
    intro l
    induction l with
    | nil => exact fun _ => rfl
    | cons a l ih =>
      intro hl
      have hone : h.refreshOne id a = h := by simp only [Huge.refreshOne, hl a List.mem_cons_self]
      rw [List.foldl_cons, hone]
      exact ih fun b hb => hl b (List.mem_cons_of_mem a hb)
  refine hfold _ fun a ha => ?_
  obtain ⟨t, -, ha⟩ := List.mem_flatMap.mp ha
  exact hlive t a ha

theorem Huge.reuse_of_live [DecidableEq A] (hlive : ∀ a ∈ h.list id, (h.desc a).state = .live) :
    h.reuse id = (h, none) := by
  have hfold : ∀ l : List A, (∀ a ∈ l, (h.desc a).state = .live) →
      l.foldl (Huge.reuseOne id) (h, none) = (h, none) := by
    intro l
    induction l with
    | nil => exact fun _ => rfl
    | cons a l ih =>
      intro hl
      have hone : Huge.reuseOne id (h, none) a = (h, none) := by
        simp only [Huge.reuseOne, hl a List.mem_cons_self]
      rw [List.foldl_cons, hone]
      exact ih fun b hb => hl b (List.mem_cons_of_mem a hb)
  exact hfold _ hlive

/-- The heap after the first range of all. -/
def Huge.oneRange [DecidableEq A] (id : T) (size : ℕ) (out : A) (blank : Descriptor) : Huge T A where
  slots := update (fun _ => none) 0 (some ⟨id, 1⟩)
  hint := 1
  list := update (fun _ => []) id [out]
  hazards := update (fun _ => []) id [0]
  desc := update (fun _ => blank) out ⟨1, 0, size, .live⟩
  dram := update (fun _ => Dram.default) id ⟨Finset.Ico size sizeSlot, 1⟩

variable [DecidableEq A] {size size' : ℕ} {out out' : A} {blank : Descriptor}

theorem Huge.zeroed_allocate (hsize : 0 < size) (hle : size ≤ sizeSlot) :
    (Huge.zeroed blank : Huge T A).allocate false id size out false =
      .ok (0, Huge.oneRange id size out blank) := by
  rw [Huge.allocate, Huge.refresh_of_live (by simp [Huge.zeroed]),
    Huge.zeroed_allocateRange id hsize hle, ok_bind]
  dsimp only
  rw [if_neg Bool.false_ne_true, Huge.insertHazard_returns (by simp [Huge.zeroed, hazardsLen])]
  rfl

theorem Huge.oneRange_live (t : T) (a : A) (ha : a ∈ (Huge.oneRange id size out blank).list t) :
    ((Huge.oneRange id size out blank).desc a).state = .live := by
  by_cases ht : t = id
  · subst ht
    simp only [Huge.oneRange, update_self, List.mem_singleton] at ha
    simp only [ha, Huge.oneRange, update_self]
  · simp [Huge.oneRange, update_of_ne ht] at ha

/-- The second range is placed right behind the first one. -/
theorem Huge.oneRange_allocate (hsize : 0 < size') (hle : size + size' ≤ sizeSlot) :
    ∃ h', (Huge.oneRange id size out blank).allocate false id size' out' false = .ok (size, h') := by
  have hfit : Dram.firstFit ((Huge.oneRange id size out blank).dram id).free size' = some size := by
    have hfree : ((Huge.oneRange id size out blank).dram id).free =
        Finset.Ico size (size + (sizeSlot - size)) := by
      rw [Nat.add_sub_cancel' (by omega)]
      simp only [Huge.oneRange, update_self]
    rw [hfree]
    exact Dram.firstFit_Ico hsize (by omega)
  rw [Huge.allocate, Huge.refresh_of_live oneRange_live, Huge.allocateRange_fit hfit, ok_bind]
  dsimp only
  rw [if_neg Bool.false_ne_true, Huge.insertHazard_returns (by simp [Huge.oneRange, hazardsLen])]
  exact ⟨_, rfl⟩

variable {m m' : Mem T Small State}

theorem Alloc.onSmall_of_exec {α : Type} {s : Alloc T} {p : Code T Small State α} {x : α}
    (hx : p.exec Mem.handle m = .ok (x, m')) (hm : s.smallMem = m) :
    s.onSmall p = .ok (x, s.withSmall m') := by
  subst hm
  rw [Alloc.onSmall, hx]

/-- An allocation from the huge heap with a new descriptor, put together. -/
theorem Alloc.allocateHuge_eq {g : Regions} {cfg : Config} {s : Alloc T} {i : Index Small} {b : Bit}
    {o : Offset Small} {h h' : Huge T (Offset Small)} {offset : ℕ}
    (hsize : ¬(nextMultipleOf size sizePage = 0 ∨ 2 ^ 64 ≤ nextMultipleOf size sizePage))
    (hreuse : s.huge.reuse id = (h, none))
    (hpeek : (Heap.peek cfg id descriptorClass).exec Mem.handle s.smallMem = .ok (some (i, b), m))
    (hal : h.allocate cfg.validate id (nextMultipleOf size sizePage)
      (Offset.fromBlock descriptorClass i b) false = .ok (offset, h'))
    (hpop : (Heap.pop cfg id descriptorClass i b).exec Mem.handle m = .ok (o, m')) :
    s.allocateHuge g cfg id size = .ok (g.huge + offset, { s.withSmall m' with huge := h' }) := by
  have hpeek' : { s with huge := h }.onSmall (Heap.peek cfg id descriptorClass) =
      .ok (some (i, b), { s with huge := h }.withSmall m) := Alloc.onSmall_of_exec hpeek rfl
  have hpop' : { { s with huge := h }.withSmall m with huge := h' }.onSmall
      (Heap.pop cfg id descriptorClass i b) = .ok (o, { s.withSmall m' with huge := h' }) :=
    Alloc.onSmall_of_exec hpop rfl
  have hal' : ({ s with huge := h }.withSmall m).huge.allocate cfg.validate id
      (nextMultipleOf size sizePage) (Offset.fromBlock descriptorClass i b) false =
        .ok (offset, h') := hal
  rw [Alloc.allocateHuge]
  dsimp only
  rw [if_neg hsize, hreuse]
  dsimp only
  rw [hpeek', ok_bind]
  dsimp only
  rw [hal', ok_bind]
  dsimp only
  rw [hpop', ok_bind]
  rfl

/-- A request that no class holds goes to the huge heap. -/
theorem Alloc.allocateUntyped_huge {g : Regions} {cfg : Config} {s : Alloc T} (hsize : 2 ^ 19 < size) :
    s.allocateUntyped g cfg id size = s.allocateHuge g cfg id size := by
  have hsmall : Small.new size = none := Small.new_eq_none_iff.mpr (lt_trans (by decide) hsize)
  have hlarge : Large.new size = none := if_neg (Nat.not_le.mpr hsize)
  simp only [Alloc.allocateUntyped, hsmall, Alloc.allocateLarge, hlarge]

/-- Take the block of a new descriptor from the small heap. -/
def Heap.takePlace (cfg : Config) (t : T) : Code T Small State Unit := do
  match ← Heap.peek cfg t descriptorClass with
  | some (i, b) => do
    let _ ← Heap.pop cfg t descriptorClass i b
  | none => panic .unwrapNone

theorem Heap.takePlace_ok {cfg : Config}
    (hx : (Heap.takePlace cfg id).exec Mem.handle m = .ok ((), m')) : ∃ i b m₁ o,
      (Heap.peek cfg id descriptorClass).exec Mem.handle m = .ok (some (i, b), m₁) ∧
      (Heap.pop cfg id descriptorClass i b).exec Mem.handle m₁ = .ok (o, m') := by
  have hwp : wp Mem.handle (Heap.takePlace cfg id) (fun _ m₂ => m₂ = m') (fun _ => False) m :=
    wp_of_exec hx rfl
  rw [Heap.takePlace, wp_bind] at hwp
  obtain ⟨r, m₁, hpeek, hrest⟩ := wp_returns hwp
  rcases r with _ | ⟨i, b⟩
  · cases hrest
  · dsimp only at hrest
    rw [wp_bind] at hrest
    obtain ⟨o, m₂, hpop, rfl⟩ := wp_returns hrest
    exact ⟨i, b, m₁, o, hpeek, hpop⟩

end TwoRanges

/-- Two ranges of the huge heap, one after the other: the second one is right behind the
first. -/
theorem Alloc.two_ranges {size size' : ℕ} (g : Regions) (hsize : 2 ^ 19 < size)
    (hsize' : 2 ^ 19 < size')
    (hle : nextMultipleOf size sizePage + nextMultipleOf size' sizePage ≤ sizeSlot) :
    ∃ (s : AllocSession (Fin 1)) (s' : Alloc (Fin 1)),
      ReflTransGen (AllocSession.Completes g (.initial false))
        (AllocSession.zeroed ⟨0, 0, 0, .safe⟩) s ∧
      s.alloc.allocateUntyped g (.initial false) 0 size' =
        .ok (g.huge + nextMultipleOf size sizePage, s') := by
  have hlt : size ≤ nextMultipleOf size sizePage := le_nextMultipleOf size (by decide)
  have hlt' : size' ≤ nextMultipleOf size' sizePage := le_nextMultipleOf size' (by decide)
  have hslot : sizeSlot < 2 ^ 64 := by decide
  -- what the small heap does for the two descriptors
  have hplaces : wp Mem.handle (do
      Heap.takePlace (.initial false) 0
      Heap.takePlace (.initial false) 0) (fun _ _ => True) (fun _ => False)
      (Alloc.zeroed ⟨0, 0, 0, .safe⟩ : Alloc (Fin 1)).smallMem := by
    rw [← wp_toBool]
    decide +kernel
  rw [wp_bind] at hplaces
  obtain ⟨_, m₁, hplace, hrest⟩ := wp_returns hplaces
  obtain ⟨_, m₂, hplace', -⟩ := wp_returns hrest
  obtain ⟨i, b, _, o, hpeek, hpop⟩ := Heap.takePlace_ok hplace
  obtain ⟨i', b', _, o', hpeek', hpop'⟩ := Heap.takePlace_ok hplace'
  let h₁ : Huge (Fin 1) (Offset Small) := Huge.oneRange 0 (nextMultipleOf size sizePage)
    (Offset.fromBlock descriptorClass i b) ⟨0, 0, 0, .safe⟩
  let s₁ : Alloc (Fin 1) := { (Alloc.zeroed ⟨0, 0, 0, .safe⟩).withSmall m₁ with huge := h₁ }
  have hfirst : (Alloc.zeroed ⟨0, 0, 0, .safe⟩ : Alloc (Fin 1)).allocateUntyped g (.initial false) 0
      size = .ok (g.huge + 0, s₁) := by
    rw [Alloc.allocateUntyped_huge hsize]
    exact Alloc.allocateHuge_eq (by omega) rfl hpeek
      (Huge.zeroed_allocate (by omega) (by omega)) hpop
  have hstep : AllocSession.Completes g (.initial false) (AllocSession.zeroed ⟨0, 0, 0, .safe⟩)
      ⟨s₁, if g.huge + 0 = 0 then ∅ else insert (g.huge + 0) ∅⟩ :=
    ⟨.allocate 0 size, trivial, by rw [AllocSession.call, AllocSession.zeroed, hfirst]⟩
  obtain ⟨h₂, hal⟩ : ∃ h₂, h₁.allocate false 0 (nextMultipleOf size' sizePage)
      (Offset.fromBlock descriptorClass i' b') false = .ok (nextMultipleOf size sizePage, h₂) :=
    Huge.oneRange_allocate (by omega) hle
  refine ⟨_, { s₁.withSmall m₂ with huge := h₂ }, .single hstep, ?_⟩
  rw [Alloc.allocateUntyped_huge hsize']
  exact Alloc.allocateHuge_eq (by omega) (Huge.reuse_of_live (Huge.oneRange_live 0)) hpeek' hal hpop'

theorem Alloc.memalign_eq {T : Type} [FinEnum T] {g : Regions} {cfg : Config} {s : Alloc T} {t : T}
    {size alignment : ℕ} (hpow : 2 ^ Nat.log2 alignment = alignment)
    (hfit : size + alignment ≤ 2 ^ 63) :
    s.memalign g cfg t size alignment = s.allocateUntyped g cfg t (nextMultipleOf size alignment) := by
  rw [Alloc.memalign, Alloc.Layout.fromSizeAlign, if_pos ⟨hpow, hfit⟩]
  rfl

/-- Regions that start at multiples of 64 KiB. -/
def alignedRegions : Regions := .at (2 ^ 15) (by decide)

/-- Behind a range of `2^19 + 1` bytes, that is 129 pages, a range of a MiB has the
alignment of a page. -/
theorem memalign_aligned_page : ∃ (s : AllocSession (Fin 1)) (p : ℕ) (s' : Alloc (Fin 1)),
    s.alloc.memalign alignedRegions (.initial false) 0 (2 ^ 20) 4096 = .ok (p, s') ∧ p ≠ 0 ∧
      4096 ∣ p := by
  obtain ⟨s, s', hrun, hx⟩ := Alloc.two_ranges alignedRegions
    (show 2 ^ 19 < 2 ^ 19 + 1 by decide) (show 2 ^ 19 < nextMultipleOf (2 ^ 20) 4096 by decide)
    (by decide)
  rw [← Alloc.memalign_eq (by decide) (by decide)] at hx
  exact ⟨s, _, s', hx, by decide, memalign_aligned hrun (by decide) (by decide) (by decide)
    (by decide) (.inr le_rfl) hx⟩

/-- It does not have an alignment of two pages. -/
theorem memalign_misaligned :
    8192 ∣ alignedRegions.small.start ∧ 8192 ∣ alignedRegions.large.start ∧
    8192 ∣ alignedRegions.huge ∧ ∃ (s : AllocSession (Fin 1)) (p : ℕ) (s' : Alloc (Fin 1)),
      ReflTransGen (AllocSession.Completes alignedRegions (.initial false))
        (AllocSession.zeroed ⟨0, 0, 0, .safe⟩) s ∧
      s.alloc.memalign alignedRegions (.initial false) 0 (2 ^ 20) 8192 = .ok (p, s') ∧ p ≠ 0 ∧
      ¬8192 ∣ p := by
  obtain ⟨s, s', hrun, hx⟩ := Alloc.two_ranges alignedRegions
    (show 2 ^ 19 < 2 ^ 19 + 1 by decide) (show 2 ^ 19 < nextMultipleOf (2 ^ 20) 8192 by decide)
    (by decide)
  rw [← Alloc.memalign_eq (by decide) (by decide)] at hx
  exact ⟨by decide, by decide, by decide, s, _, s', hrun, hx, by decide, by decide⟩

end Cxlalloc
