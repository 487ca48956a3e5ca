/-
Rebuilding the volatile half of the huge heap.

`focus` computes the free set of a thread from the slots it has claimed and the descriptors
on its list, and takes out the `Live` ranges only.  The free set the thread was running with
misses the `Free` ranges as well: `Full` is the invariant that it misses nothing else.  So
the two agree exactly when no descriptor on the list is `Free`, and only then may the thread
go on with what was rebuilt.

The lookups by offset are here too: in every state reached, `find` returns the `Live`
descriptor whose range holds the offset.
-/
import Cxlalloc.Proofs.Huge

namespace Cxlalloc

open Function
open Relation

variable {T A : Type} {h h' : Huge T A} {id t : T} {a b : A}

/-! ### The free set misses only what is in use -/

/-- Every byte a thread has claimed is free, or in a range in use. -/
def Huge.Full (h : Huge T A) : Prop :=
  ∀ t, ∀ x ∈ h.claimed t, x ∈ (h.dram t).free ∨
    ∃ a ∈ h.list t, (h.desc a).InUse ∧ x ∈ (h.desc a).range

variable {blank : Descriptor}

theorem Huge.Full.zeroed : (Huge.zeroed blank : Huge T A).Full := by
  rintro t x ⟨slot, claim, hslot, -⟩
  cases hslot

theorem Huge.Full.grown [DecidableEq T] (full : h.Full) (inv : HugeInv h) {n : ℕ} :
    (h.grown id n).Full := by
  intro t x hx
  rcases inv.mem_claimed_grown.mp hx with hx | ⟨rfl, hlo, hhi⟩
  · rcases full t x hx with hfree | hused
    · left
      by_cases ht : t = id
      · subst ht
        simp only [Huge.grown, update_self, Dram.claim, Dram.uncover]
        exact Finset.mem_union_left _ hfree
      · simpa only [Huge.grown, update_of_ne ht] using hfree
    · exact .inr hused
  · left
    simp only [Huge.grown, update_self, Dram.claim, Dram.uncover]
    rw [Nat.add_mul] at hhi
    exact Finset.mem_union_right _ (Finset.mem_Ico.mpr ⟨hlo, hhi⟩)

section Steps

variable [FinEnum T] {validate : Bool} {d : Descriptor} {size offset : ℕ} {out : A}

/-- What `allocateRange` takes is the range it returns. -/
theorem Huge.Full.allocateRange (full : h.Full) (inv : HugeInv h) {n : ℕ} (hsize : 0 < size)
    (hal : h.allocateRange id size n = .ok (d, h')) :
    ∀ t, ∀ x ∈ h'.claimed t, x ∈ (h'.dram t).free ∨ t = id ∧ x ∈ d.range ∨
      ∃ a ∈ h'.list t, (h'.desc a).InUse ∧ x ∈ (h'.desc a).range := by
  induction n generalizing h with
  | zero => cases hal
  | succ n ih =>
    rcases Huge.allocateRange_succ hal with ⟨h₁, hclaim, hal⟩ | ⟨offset, hf, rfl, rfl⟩
    · obtain ⟨rfl, inv₁⟩ := inv.claim_ok hsize hclaim
      exact ih (full.grown inv) inv₁ hal
    · intro t x hx
      rcases full t x hx with hfree | hused
      · by_cases ht : t = id
        · subst ht
          by_cases hmem : x ∈ Finset.Ico offset (offset + size)
          · exact .inr (.inl ⟨rfl, hmem⟩)
          · left
            simp only [update_self]
            exact Finset.mem_sdiff.mpr ⟨hfree, hmem⟩
        · left
          simpa only [update_of_ne ht] using hfree
      · exact .inr (.inr hused)

variable [DecidableEq A]

/-- `allocate` writes over a descriptor that is not in use. -/
theorem Huge.Full.allocate (full : h.Full) (inv : HugeInv h) (hsize : 0 < size) {reuse : Bool}
    (hout : reuse = true → out ∈ h.list id) (hsafe : ∀ t, out ∈ h.list t → (h.desc out).state = .safe)
    (hal : h.allocate validate id size out reuse = .ok (offset, h')) : h'.Full := by
  obtain ⟨hz, d, h₁, hz', hrange, rfl, rfl⟩ := Huge.allocate_ok hal
  have res := (inv.hazards hz).allocateRange hsize hrange
  have hl₁ : h₁.list = h.list := res.list
  have hd₁ : h₁.desc = h.desc := res.desc
  have hfull : ({ h with hazards := hz } : Huge T A).Full := full
  intro t x hx
  rcases hfull.allocateRange (inv.hazards hz) hsize hrange t x hx with
    hfree | ⟨rfl, hnew⟩ | ⟨a, ha, ua, hxa⟩
  · exact .inl hfree
  · refine .inr ⟨out, ?_, ?_⟩
    · simp only [update_self, hl₁]
      cases reuse with
      | true => exact hout rfl
      | false => exact List.mem_cons_self
    · simp only [update_self]
      exact ⟨by simp [Descriptor.InUse, res.live], hnew⟩
  · have hne : a ≠ out := by
      rintro rfl
      exact ua (hd₁ ▸ hsafe t (hl₁ ▸ ha))
    refine .inr ⟨a, ?_, by simpa only [update_of_ne hne] using ⟨ua, hxa⟩⟩
    by_cases ht : t = id
    · subst ht
      simp only [update_self]
      split
      · exact ha
      · exact List.mem_cons_of_mem _ ha
    · simpa only [update_of_ne ht] using ha

/-- A range that leaves its descriptor goes to the free set. -/
theorem Huge.Full.reuseOne (full : h.Full) (inv : HugeInv h) (ha : a ∈ h.list id)
    (safe : Option A) : (Huge.reuseOne id (h, safe) a).1.Full := by
  cases hs : (h.desc a).state with
  | live => simpa only [Huge.reuseOne, hs] using full
  | safe => simpa only [Huge.reuseOne, hs] using full
  | free =>
    by_cases hz : h.hazardous (h.desc a).offset
    · simpa only [Huge.reuseOne, hs, if_pos hz] using full
    · simp only [Huge.reuseOne, hs, if_neg hz]
      intro t x hx
      rcases full t x hx with hfree | ⟨b, hb, ub, hxb⟩
      · left
        by_cases ht : t = id
        · subst ht
          simp only [update_self]
          exact Finset.mem_union_left _ hfree
        · simpa only [update_of_ne ht] using hfree
      · by_cases hba : b = a
        · subst hba
          obtain rfl := inv.disjoint t id b hb ha
          left
          simp only [update_self]
          exact Finset.mem_union_right _ hxb
        · exact .inr ⟨b, hb, by simpa only [update_of_ne hba] using ⟨ub, hxb⟩⟩

theorem Huge.Full.reuse_fold {l : List A} (full : h.Full) (inv : HugeInv h)
    (hl : ∀ a ∈ l, a ∈ h.list id) (safe : Option A) :
    (l.foldl (Huge.reuseOne id) (h, safe)).1.Full := by
  induction l generalizing h safe with
  | nil => exact full
  | cons a l ih =>
    obtain ⟨h₁, safe₁, hone, inv₁, htrim, -⟩ := inv.reuseOne (hl a List.mem_cons_self) safe
    have full₁ := full.reuseOne inv (hl a List.mem_cons_self) safe
    rw [hone] at full₁
    rw [List.foldl_cons, hone]
    exact ih full₁ inv₁ (fun b hb => htrim.list ▸ hl b (List.mem_cons_of_mem a hb)) safe₁

theorem Huge.Full.allocateHuge (full : h.Full) (inv : HugeInv h) {block : A}
    (hblock : ∀ t, block ∉ h.list t)
    (hal : h.allocateHuge validate id size block = .ok (offset, h')) : h'.Full := by
  obtain ⟨h₁, safe, hreuse, inv₁, htrim, hsafe⟩ := inv.reuse id
  have full₁ : h₁.Full := by
    have hfold : (h.reuse id).1.Full := full.reuse_fold inv (fun _ ha => ha) none
    rwa [hreuse] at hfold
  rw [Huge.allocateHuge] at hal
  split at hal
  · cases hal
  · rename_i hsize
    have hpos : 0 < nextMultipleOf size sizePage := by omega
    rw [hreuse] at hal
    cases safe with
    | none =>
      have hblock₁ : ∀ t, block ∉ h₁.list t := htrim.list ▸ hblock
      exact full₁.allocate inv₁ hpos (by simp) (fun t ht => absurd ht (hblock₁ t)) hal
    | some a =>
      obtain ⟨pre, post, hl, hs, -⟩ := hsafe a rfl
      exact full₁.allocate inv₁ hpos (fun _ => by simp [hl]) (fun _ _ => hs) hal

/-- A range that is freed stays in use. -/
theorem Huge.Full.free (full : h.Full) (hfree : h.free id offset = .ok h') : h'.Full := by
  obtain ⟨hz, hrefresh, -⟩ := Huge.refresh_eq h id
  simp only [Huge.free, hrefresh] at hfree
  split at hfree
  · cases hfree
  · obtain rfl := Except.ok.inj hfree
    rename_i a _
    intro t x hx
    rcases full t x hx with hmem | ⟨b, hb, ub, hxb⟩
    · exact .inl hmem
    · refine .inr ⟨b, hb, ?_, by rw [Descriptor.range_update]; exact hxb⟩
      by_cases hba : b = a
      · subst hba
        simp [Descriptor.InUse, update_self]
      · simpa only [update_of_ne hba] using ub

namespace HugeSession

variable {s s' : HugeSession T A}

theorem full_step (hs : s.Sound) (full : s.heap.Full) (hstep : Step validate s s') :
    s'.heap.Full := by
  obtain ⟨c, hlegal, hcall⟩ := hstep
  cases c with
  | allocate t size block =>
    rw [call] at hcall
    split at hcall
    · rename_i offset h hal
      obtain rfl := Except.ok.inj hcall
      exact full.allocateHuge hs.inv hlegal hal
    · cases hcall
  | free t offset =>
    rw [call] at hcall
    split at hcall
    · rename_i h hfree
      obtain rfl := Except.ok.inj hcall
      exact full.free hfree
    · cases hcall
  | tryMap t offset =>
    rw [call] at hcall
    split at hcall
    · rename_i h hmap
      obtain rfl := Except.ok.inj hcall
      obtain ⟨hz, rfl⟩ := Huge.tryMap_eq hmap
      exact full
    · cases hcall

theorem full_run (hrun : ReflTransGen (Step validate) (zeroed blank) s) : s.heap.Full := by
  induction hrun with
  | refl => exact .zeroed
  | tail hrun hstep ih => exact full_step (sound_run hrun) ih hstep

end HugeSession

end Steps

/-! ### What `focus` computes -/

/-- Ranges that are free and do not meet can be covered one after the other. -/
theorem Dram.cover_all {l : List Descriptor} {d : Dram} (hfree : ∀ y ∈ l, y.range ⊆ d.free)
    (hpair : l.Pairwise fun y z => Disjoint y.range z.range) :
    ∃ d', l.foldlM (fun d y => d.cover y.offset y.size) d = .ok d' ∧
      ∀ x, x ∈ d'.free ↔ x ∈ d.free ∧ ∀ y ∈ l, x ∉ y.range := by
  induction l generalizing d with
  | nil => exact ⟨d, rfl, by simp⟩
  | cons y l ih =>
    obtain ⟨hy, hpair⟩ := List.pairwise_cons.mp hpair
    have hcover : d.cover y.offset y.size = .ok { d with free := d.free \ y.range } :=
      if_pos (hfree y List.mem_cons_self)
    have hrest : ∀ z ∈ l, z.range ⊆ d.free \ y.range := fun z hz =>
      Finset.subset_sdiff.mpr ⟨hfree z (List.mem_cons_of_mem _ hz), (hy z hz).symm⟩
    obtain ⟨d', hfold, hmem⟩ := ih (d := { d with free := d.free \ y.range }) hrest hpair
    refine ⟨d', by rw [List.foldlM_cons, hcover, ok_bind, hfold], fun x => ?_⟩
    rw [hmem, Finset.mem_sdiff, List.forall_mem_cons, and_assoc]

/-- A scan each step of which only adds free bytes. -/
theorem Dram.mem_foldl {f : Dram → ℕ → Dram} {P : ℕ → ℕ → Prop} {slots : List ℕ} {d : Dram} {x : ℕ}
    (hf : ∀ d slot x, x ∈ (f d slot).free ↔ x ∈ d.free ∨ P slot x) :
    x ∈ (slots.foldl f d).free ↔ x ∈ d.free ∨ ∃ slot ∈ slots, P slot x := by
  induction slots generalizing d with
  | nil => simp
  | cons slot slots ih => rw [List.foldl_cons, ih, hf, List.exists_mem_cons_iff, or_assoc]

section Focus

variable [FinEnum T]

/-- **`focus` returns**: the live ranges are inside the slots of the thread, apart from each
other.  What is free afterwards is what was claimed and is not live. -/
theorem HugeInv.focus_eq (inv : HugeInv h) (t : T) : ∃ d, h.focus t = .ok d ∧
    ∀ x, x ∈ d.free ↔ x ∈ h.claimed t ∧
      ∀ a ∈ h.list t, (h.desc a).state = .live → x ∉ (h.desc a).range := by
  unfold Huge.focus
  generalize hclaims : List.foldl _ Dram.default (List.range slotsLen) = claims
  set live := (h.list t).filter fun a => decide ((h.desc a).state = .live) with hlive
  have hmem : ∀ x, x ∈ claims.free ↔ x ∈ h.claimed t := by
    intro x
    rw [← hclaims, Dram.mem_foldl (P := fun slot x => ∃ claim, h.slots slot = some claim ∧
      claim.id = t ∧ slot * sizeSlot ≤ x ∧ x < (slot + claim.slotCount) * sizeSlot)]
    · constructor
      · rintro (hx | ⟨slot, -, claim, hclaim⟩)
        · simp [Dram.default] at hx
        · exact ⟨slot, claim, hclaim⟩
      · rintro ⟨slot, claim, hslot, hclaim⟩
        have hend := inv.slots.le_hint slot claim hslot
        have hpos := inv.slots.pos slot claim hslot
        have hle := inv.slots.hint_le
        exact .inr ⟨slot, List.mem_range.mpr (by omega), claim, hslot, hclaim⟩
    · intro d slot x
      cases hs : h.slots slot with
      | none => simp
      | some claim =>
        by_cases hid : claim.id = t
        · simp [hid, Dram.claim, Dram.uncover, Nat.add_mul]
        · simp [hid]
  have huse : ∀ a ∈ live, a ∈ h.list t ∧ (h.desc a).InUse := by
    intro a ha
    obtain ⟨hl, hstate⟩ := List.mem_filter.mp ha
    exact ⟨hl, by simp [Descriptor.InUse, of_decide_eq_true hstate]⟩
  have hsub : ∀ y ∈ live.map h.desc, y.range ⊆ claims.free := by
    intro y hy x hx
    obtain ⟨a, ha, rfl⟩ := List.mem_map.mp hy
    exact (hmem x).mpr (inv.claimed t a (huse a ha).1 (huse a ha).2 hx)
  have hpair : (live.map h.desc).Pairwise fun y z => Disjoint y.range z.range := by
    rw [List.pairwise_map]
    refine ((inv.nodup t).filter _).imp_of_mem fun {a b} ha hb hne => ?_
    exact inv.ranges_disjoint (huse a ha).1 (huse b hb).1 hne (huse a ha).2 (huse b hb).2
  obtain ⟨d, hfold, hd⟩ := Dram.cover_all hsub hpair
  rw [List.foldlM_map] at hfold
  dsimp only
  rw [hfold]
  refine ⟨_, rfl, fun x => ?_⟩
  rw [hd, hmem, List.forall_mem_map]
  simp [hlive]

/-- Another free set with the same bytes. -/
theorem HugeInv.redram (inv : HugeInv h) {d : Dram} (hd : d.free = (h.dram t).free) :
    HugeInv { h with dram := update h.dram t d } := by
  have hsame : ∀ t', (update h.dram t d t').free = (h.dram t').free := by
    intro t'
    by_cases ht : t' = t
    · subst ht
      rw [update_self, hd]
    · rw [update_of_ne ht]
  exact {
    slots := ⟨inv.slots.le_hint, inv.slots.pos, inv.slots.gap, inv.slots.hint_le⟩
    nodup := inv.nodup
    disjoint := inv.disjoint
    freeClaimed := fun t' => by rw [hsame]; exact inv.freeClaimed t'
    pos := inv.pos
    claimed := inv.claimed
    free := fun t' => by rw [hsame]; exact inv.free t'
    order := inv.order }

end Focus

/-! ### Two threads and one page -/

/-- In one free interval the first fit is its lower end. -/
theorem Dram.firstFit_Ico {lower n size : ℕ} (hsize : 0 < size) (hle : size ≤ n) :
    firstFit (Finset.Ico lower (lower + n)) size = some lower := by
  have hfits : fits (Finset.Ico lower (lower + n)) size = {lower} := by
    ext x
    simp only [fits, Finset.mem_filter, Finset.mem_Ico, Finset.mem_singleton]
    constructor
    · rintro ⟨⟨hlo, hhi⟩, hbelow, -⟩
      by_contra hne
      exact hbelow (x - 1) ⟨by omega, by omega⟩ (by omega)
    · rintro rfl
      refine ⟨⟨le_rfl, by omega⟩, fun below hb => by omega, fun y hy => ?_⟩
      rw [Finset.mem_Ico] at hy ⊢
      omega
  simp [firstFit, hfits]

/-- A round that finds room. -/
theorem Huge.allocateRange_fit [FinEnum T] {size offset : ℕ} {n : ℕ}
    (hfit : Dram.firstFit (h.dram id).free size = some offset) :
    h.allocateRange id size (n + 1) = .ok
      ({ index := (h.dram id).index + 1, offset := offset, size := size, state := .live },
        { h with
          dram := update h.dram id
            { free := (h.dram id).free \ Finset.Ico offset (offset + size)
              index := (h.dram id).index + 1 } }) := by
  rw [Huge.allocateRange, Dram.allocate_eq, hfit, ok_bind]
  rfl

theorem slotCount_eq_one {size : ℕ} (hsize : 0 < size) (hle : size ≤ sizeSlot) :
    slotCount size = 1 := by
  have hpos : 0 < sizeSlot := by decide
  rw [slotCount, nextMultipleOf, Nat.mul_div_cancel _ hpos]
  exact Nat.div_eq_of_lt_le (by omega) (by omega)

/-- The first range of all: one slot is claimed, and the range is at its start. -/
theorem Huge.zeroed_allocateRange [FinEnum T] {size : ℕ} (id : T)
    (hsize : 0 < size) (hle : size ≤ sizeSlot) :
    (Huge.zeroed blank : Huge T A).allocateRange id size 2 =
      .ok (⟨1, 0, size, .live⟩, { Huge.zeroed blank with
        slots := update (fun _ => none) 0 (some ⟨id, 1⟩)
        hint := 1
        dram := update (fun _ => Dram.default) id ⟨Finset.Ico size sizeSlot, 1⟩ }) := by
  have hinv : HugeInv (Huge.zeroed blank : Huge T A) := .zeroed
  have hempty : Dram.firstFit ∅ size = none := by simp [Dram.firstFit, Dram.fits]
  have hdram : ((Huge.zeroed blank : Huge T A).grown id 1).dram id =
      ⟨Finset.Ico 0 (0 + sizeSlot), 0⟩ := by
    simp [Huge.grown, Huge.zeroed, Dram.default, Dram.claim, Dram.uncover]
  have hfirst : Dram.firstFit (((Huge.zeroed blank : Huge T A).grown id 1).dram id).free size =
      some 0 := by
    rw [hdram]
    exact Dram.firstFit_Ico hsize hle
  have hrest : Finset.Ico 0 (0 + sizeSlot) \ Finset.Ico 0 (0 + size) = Finset.Ico size sizeSlot := by
    ext x
    simp only [Finset.mem_sdiff, Finset.mem_Ico]
    omega
  rw [Huge.allocateRange, Dram.allocate_eq,
    show ((Huge.zeroed blank : Huge T A).dram id).free = ∅ from rfl, hempty, ok_bind,
    hinv.claim_eq, show (Huge.zeroed blank : Huge T A).hint = 0 from rfl, slotCount_eq_one hsize hle,
    if_pos (show (0 : ℕ) + 1 ≤ slotsLen by decide),
    ok_bind, Huge.allocateRange_fit hfirst, hdram, hrest]
  refine congrArg Except.ok (Prod.ext rfl ?_)
  show (_ : Huge T A) = _
  simp only [Huge.grown, update_idem]
  rfl

/-- The huge heap of two threads while the first page range of the first one is on its list. -/
def onePage (state : DescriptorState) (hazards : Fin 2 → List ℕ) (dram : Fin 2 → Dram) :
    Huge (Fin 2) ℕ where
  slots := update (fun _ => none) 0 (some ⟨0, 1⟩)
  hint := 1
  list := update (fun _ => []) 0 [0]
  hazards := hazards
  desc := update (fun _ => ⟨0, 0, 0, .safe⟩) 0 ⟨1, 0, 4096, state⟩
  dram := dram

theorem onePage_allocate : ∃ dram,
    (Huge.zeroed ⟨0, 0, 0, .safe⟩ : Huge (Fin 2) ℕ).allocateHuge false 0 1 0 =
      .ok (0, onePage .live (update (fun _ => []) 0 [0]) dram) := by
  have hpage : nextMultipleOf 1 sizePage = 4096 := by decide
  refine ⟨update (fun _ => Dram.default) 0 ⟨Finset.Ico 4096 sizeSlot, 1⟩, ?_⟩
  unfold Huge.allocateHuge
  rw [hpage]
  show Huge.allocate _ _ _ _ _ _ = _
  unfold Huge.allocate
  show (Huge.allocateRange 0 4096 2 (Huge.zeroed ⟨0, 0, 0, .safe⟩) >>= _) = _
  rw [Huge.zeroed_allocateRange 0 (by decide) (by decide)]
  rfl

/-- The first thread allocates a page. -/
theorem onePage_live : ∃ dram, ReflTransGen (HugeSession.Step false)
    (HugeSession.zeroed ⟨0, 0, 0, .safe⟩)
    ⟨onePage .live (update (fun _ => []) 0 [0]) dram, {0}⟩ := by
  obtain ⟨dram, hal⟩ := onePage_allocate
  have hblock : ∀ t, 0 ∉ (Huge.zeroed ⟨0, 0, 0, .safe⟩ : Huge (Fin 2) ℕ).list t := by
    simp [Huge.zeroed]
  exact ⟨dram, .single (HugeSession.Step.allocate hblock hal)⟩

/-- The second thread maps it, and the first one frees it. -/
theorem onePage_freed : ∃ dram, ReflTransGen (HugeSession.Step false)
    (HugeSession.zeroed ⟨0, 0, 0, .safe⟩)
    ⟨onePage .free (update (fun _ => [0]) 0 []) dram, ∅⟩ := by
  obtain ⟨dram, hrun⟩ := onePage_live
  have hmapped : (update (update (fun _ => []) 0 [0]) 1 ([] ++ [0]) : Fin 2 → List ℕ) =
      fun _ => [0] := by decide
  have hmap : (onePage .live (update (fun _ => []) 0 [0]) dram).tryMap false 1 0 =
      .ok (onePage .live (fun _ => [0]) dram) := by
    rw [← hmapped]
    rfl
  have hdesc : (onePage .free (update (fun _ => [0]) 0 []) dram).desc =
      update (onePage .live (update (fun _ => [0]) 0 []) dram).desc 0 ⟨1, 0, 4096, .free⟩ :=
    (update_idem ..).symm
  have hfree : (onePage .live (fun _ => [0]) dram).free 0 0 =
      .ok (onePage .free (update (fun _ => [0]) 0 []) dram) := by
    rw [show onePage .free (update (fun _ => [0]) 0 []) dram =
      { onePage .live (update (fun _ => [0]) 0 []) dram with
        desc := (onePage .free (update (fun _ => [0]) 0 []) dram).desc } from rfl, hdesc]
    rfl
  have hstep₁ : HugeSession.Step false ⟨onePage .live (update (fun _ => []) 0 [0]) dram, {0}⟩
      ⟨onePage .live (fun _ => [0]) dram, {0}⟩ :=
    ⟨.tryMap 1 0, ⟨0, 0, by simp [onePage], rfl, by simp [onePage, Descriptor.range]⟩,
      by rw [HugeSession.call, hmap]⟩
  have hstep₂ : HugeSession.Step false ⟨onePage .live (fun _ => [0]) dram, {0}⟩
      ⟨onePage .free (update (fun _ => [0]) 0 []) dram, ∅⟩ :=
    ⟨.free 0 0, by simp [HugeSession.Legal], by rw [HugeSession.call, hfree]; rfl⟩
  exact ⟨dram, (hrun.tail hstep₁).tail hstep₂⟩

/-- Nothing of the page is left out when the free set is rebuilt. -/
theorem onePage_focus {hz : Fin 2 → List ℕ} {dram : Fin 2 → Dram}
    (inv : HugeInv (onePage .free hz dram)) :
    ∃ d, (onePage .free hz dram).focus 0 = .ok d ∧ d.free = Finset.Ico 0 (0 + sizeSlot) := by
  obtain ⟨d, hfocus, hd⟩ := inv.focus_eq 0
  refine ⟨d, hfocus, ?_⟩
  ext x
  rw [hd]
  constructor
  · rintro ⟨⟨slot, claim, hslot, -, hlo, hhi⟩, -⟩
    by_cases h0 : slot = 0
    · subst h0
      obtain rfl := Option.some.inj hslot
      simpa using hhi
    · simp [onePage, update_of_ne h0] at hslot
  · intro hx
    refine ⟨⟨0, ⟨0, 1⟩, rfl, rfl, by simp, by simpa using hx⟩, fun a ha hlive => ?_⟩
    obtain rfl : a = 0 := by simpa [onePage] using ha
    cases hlive

/-- So the page is handed out again, while the second thread still has it mapped. -/
theorem onePage_reallocate {dram : Fin 2 → Dram} (hd : (dram 0).free = Finset.Ico 0 (0 + sizeSlot)) :
    ∃ h', (onePage .free (update (fun _ => [0]) 0 []) dram).allocateHuge false 0 1 1 = .ok (0, h') ∧
      ¬ h'.NoOverlap := by
  have hpage : nextMultipleOf 1 sizePage = 4096 := by decide
  have hfit : Dram.firstFit (dram 0).free 4096 = some 0 := by
    rw [hd]
    exact Dram.firstFit_Ico (by decide) (by decide)
  unfold Huge.allocateHuge
  rw [hpage]
  show ∃ h', Huge.allocate false 0 4096 1 false _ = _ ∧ _
  unfold Huge.allocate
  show ∃ h', (Huge.allocateRange 0 4096 2
    (onePage .free (update (update (fun _ => [0]) 0 []) 0 []) dram) >>= _) = _ ∧ _
  rw [Huge.allocateRange_fit
    (h := onePage .free (update (update (fun _ => [0]) 0 []) 0 []) dram) hfit, ok_bind]
  refine ⟨_, rfl, fun hno => ?_⟩
  have hdisj := hno.hazard_disjoint 0 0 1 0 1 (by simp [onePage]) (by simp [onePage]) rfl
    (show 0 ∈ [0] by decide) rfl
  have hpage : 0 ∈ Finset.Ico 0 (0 + 4096) := by simp
  exact Finset.disjoint_left.mp hdisj hpage hpage

/-! ### Going on with what was rebuilt -/

namespace HugeSession

variable [FinEnum T] [DecidableEq A] {validate : Bool} {s s' : HugeSession T A}

theorem Sound.run (hs : s.Sound) (hrun : ReflTransGen (Step validate) s s') : s'.Sound := by
  induction hrun with
  | refl => exact hs
  | tail _ hstep ih => exact ih.step hstep

/-- What a restart of the thread should give: the free set it had, and no overlap in any
state the calls after it lead to. -/
structure Rebuilds (validate : Bool) (t : T) (s s' : HugeSession T A) : Prop where
  restart : s.restart t = .ok s'
  free : (s'.heap.dram t).free = (s.heap.dram t).free
  later : ∀ s'', ReflTransGen (Step validate) s' s'' → s''.heap.NoOverlap

/-- **The volatile half of the huge heap is rebuilt as it was exactly when the thread has no
`Free` descriptor.** -/
theorem rebuilds_iff {blank : Descriptor}
    (hrun : ReflTransGen (Step validate) (zeroed blank) s) (t : T) :
    (∃ s', Rebuilds validate t s s') ↔ ∀ a ∈ s.heap.list t, (s.heap.desc a).state ≠ .free := by
  have hs := sound_run hrun
  have full := full_run hrun
  obtain ⟨d, hfocus, hd⟩ := hs.inv.focus_eq t
  have hrestart : s.restart t =
      .ok { s with heap := { s.heap with dram := update s.heap.dram t d } } := by
    rw [HugeSession.restart, hfocus]
  constructor
  · rintro ⟨s', hre⟩ a ha hfree
    -- a byte of the `Free` range is rebuilt as free, though it was not
    have ua : (s.heap.desc a).InUse := by simp [Descriptor.InUse, hfree]
    have hx : (s.heap.desc a).offset ∈ (s.heap.desc a).range := by
      have := hs.inv.pos t a ha ua
      exact Finset.mem_Ico.mpr ⟨le_rfl, by omega⟩
    obtain rfl := Except.ok.inj (hrestart.symm.trans hre.restart)
    have hsame := hre.free
    simp only [update_self] at hsame
    refine Finset.disjoint_right.mp (hs.inv.free t a ha ua) hx (hsame ▸ (hd _).mpr ?_)
    refine ⟨hs.inv.claimed t a ha ua hx, fun b hb hlive hxb => ?_⟩
    have hba : b ≠ a := by
      rintro rfl
      rw [hfree] at hlive
      cases hlive
    exact Finset.disjoint_left.mp
      (hs.inv.ranges_disjoint hb ha hba (by simp [Descriptor.InUse, hlive]) ua) hxb hx
  · intro hnone
    have hsame : d.free = (s.heap.dram t).free := by
      ext x
      rw [hd]
      constructor
      · rintro ⟨hx, hlive⟩
        rcases full t x hx with hfree | ⟨a, ha, ua, hxa⟩
        · exact hfree
        · cases hstate : (s.heap.desc a).state with
          | live => exact absurd hxa (hlive a ha hstate)
          | free => exact absurd hstate (hnone a ha)
          | safe => exact absurd hstate ua
      · intro hx
        refine ⟨hs.inv.freeClaimed t hx, fun a ha hlive => ?_⟩
        exact Finset.disjoint_left.mp
          (hs.inv.free t a ha (by simp [Descriptor.InUse, hlive])) hx
    refine ⟨_, hrestart, by simp only [update_self, hsame], fun s'' hlater => ?_⟩
    have hsound : Sound { s with heap := { s.heap with dram := update s.heap.dram t d } } :=
      ⟨hs.inv.redram hsame, hs.live⟩
    exact (hsound.run hlater).inv.noOverlap

/-- A thread with one live page finds its free set again. -/
theorem rebuilds_iff_live : ∃ s : HugeSession (Fin 2) ℕ,
    ReflTransGen (Step false) (zeroed ⟨0, 0, 0, .safe⟩) s ∧
      (∃ a ∈ s.heap.list 0, (s.heap.desc a).state = .live) ∧ ∃ s', Rebuilds false 0 s s' := by
  obtain ⟨dram, hrun⟩ := onePage_live
  refine ⟨_, hrun, ⟨0, by simp [onePage], rfl⟩, (rebuilds_iff hrun 0).mpr fun a ha => ?_⟩
  obtain rfl : a = 0 := by simpa [onePage] using ha
  simp [onePage]

/-- `focus` rebuilds a freed page as free while another thread has it mapped, and the next
allocation hands it out again. -/
theorem restart_reopens : ∃ s : HugeSession (Fin 2) ℕ,
    ReflTransGen (Step false) (zeroed ⟨0, 0, 0, .safe⟩) s ∧ ∃ s', s.restart 0 = .ok s' ∧
      (s'.heap.dram 0).free ≠ (s.heap.dram 0).free ∧
      ∃ s'', Step false s' s'' ∧ ¬ s''.heap.NoOverlap := by
  obtain ⟨dram, hrun⟩ := onePage_freed
  have inv := (sound_run hrun).inv
  obtain ⟨d, hfocus, hd⟩ := onePage_focus inv
  have hd' : (update dram 0 d 0) = d := update_self ..
  obtain ⟨h', hal, hover⟩ := onePage_reallocate (hd' ▸ hd)
  have hused := inv.free 0 0 (by simp [onePage]) (by simp [Descriptor.InUse, onePage])
  have hblock : ∀ t, 1 ∉ (onePage .free (update (fun _ => [0]) 0 []) (update dram 0 d)).list t :=
    show ∀ t, 1 ∉ update (fun _ => []) 0 [0] t by decide
  refine ⟨_, hrun, _, by rw [HugeSession.restart, hfocus], fun hsame => ?_,
    _, Step.allocate hblock hal, hover⟩
  have hmem : 0 ∈ d.free := by
    rw [hd]
    exact Finset.mem_Ico.mpr ⟨le_rfl, by decide⟩
  simp only [update_self] at hsame
  rw [hsame] at hmem
  exact Finset.disjoint_left.mp hused hmem (by simp [onePage, Descriptor.range])

end HugeSession

/-! ### Looking up an offset -/

/-- The operations that take an offset act on the descriptor `a`. -/
structure Huge.Resolves [FinEnum T] [DecidableEq A] (h : Huge T A) (offset : ℕ) (a : A) : Prop where
  find : h.find offset = some a
  classOf : h.classOf offset = .ok (h.desc a).size
  free : ∀ id, ∃ h', h.free id offset = .ok h' ∧ h'.list = h.list ∧
    h'.desc = update h.desc a { h.desc a with state := .free }
  tryMap : ∀ validate id, h.tryMap validate id offset =
    h.insertHazard validate id (h.desc a).offset

/-- A lookup reads no hazards. -/
theorem Huge.find_hazards (hz : T → List ℕ) (offset : ℕ) :
    ({ h with hazards := hz } : Huge T A).find offset = h.find offset := by
  have hclaim : ∀ slot, ({ h with hazards := hz } : Huge T A).findClaim slot = h.findClaim slot := by
    intro slot
    induction slot with
    | zero => rfl
    | succ slot ih => rw [Huge.findClaim, Huge.findClaim, ih]
  simp only [Huge.find, Huge.findOwner, hclaim]

theorem Huge.Resolves.of_find [FinEnum T] [DecidableEq A] {offset : ℕ}
    (hfind : h.find offset = some a) : h.Resolves offset a where
  find := hfind
  classOf := by rw [Huge.classOf, hfind]
  free id := by
    obtain ⟨hz, hrefresh, -⟩ := Huge.refresh_eq h id
    simp only [Huge.free, hrefresh, Huge.find_hazards, hfind]
    exact ⟨_, rfl, rfl, rfl⟩
  tryMap validate id := by rw [Huge.tryMap, hfind]

/-- **An offset in a live range leads to the descriptor of that range**, whatever stale
ranges hold it as well. -/
theorem HugeSession.resolves_live [FinEnum T] [DecidableEq A] {validate : Bool}
    {blank : Descriptor} {s : HugeSession T A}
    (hrun : ReflTransGen (Step validate) (zeroed blank) s) (ha : a ∈ s.heap.list t)
    (hlive : (s.heap.desc a).state = .live) {offset : ℕ} (hx : offset ∈ (s.heap.desc a).range) :
    s.heap.Resolves offset a :=
  .of_find ((sound_run hrun).inv.find_eq ha (by simp [Descriptor.InUse, hlive]) hx)

/-- An offset in the middle of the page. -/
theorem HugeSession.resolves_live_interior : ∃ s : HugeSession (Fin 2) ℕ,
    ReflTransGen (Step false) (zeroed ⟨0, 0, 0, .safe⟩) s ∧ (s.heap.desc 0).offset < 100 ∧
      s.heap.Resolves 100 0 := by
  obtain ⟨dram, hrun⟩ := onePage_live
  exact ⟨_, hrun, by simp [onePage], resolves_live hrun (t := 0) (by simp [onePage]) rfl
    (by simp [onePage, Descriptor.range])⟩

end Cxlalloc
