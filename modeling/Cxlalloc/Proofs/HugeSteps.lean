/-
What threads can do to the huge heap in one step.

`Sound` is what holds of the heap between any two steps, as long as no descriptor is taken back
while a `refresh` is about to unmap it.  `Acts` is all a thread does to the heap in one step, and
the lemmas under it say what the other threads can count on: their own descriptors change only
from `Live` to `Free`, what they use stays as it is, and a range they have found to be without
hazards stays without.
-/
import Cxlalloc.HugeSteps
import Cxlalloc.Proofs.Huge

namespace Cxlalloc

open Lib
open Lib.Prog (lift)
open Lib.Protocol
open Function
open Relation

/-- The invariant only reads descriptors that are on a list. -/
theorem HugeInv.congr_desc {T A : Type} {h : Huge T A} (inv : HugeInv h) {desc : A → Descriptor}
    (hdesc : ∀ t, ∀ a ∈ h.list t, desc a = h.desc a) : HugeInv { h with desc := desc } where
  slots := ⟨inv.slots.le_hint, inv.slots.pos, inv.slots.gap, inv.slots.hint_le⟩
  nodup := inv.nodup
  disjoint := inv.disjoint
  freeClaimed := inv.freeClaimed
  pos t a ha := by
    simp only [hdesc t a ha]
    exact inv.pos t a ha
  claimed t a ha := by
    simp only [hdesc t a ha]
    exact inv.claimed t a ha
  free t a ha := by
    simp only [hdesc t a ha]
    exact inv.free t a ha
  order t := by
    refine (inv.order t).imp_of_mem fun hb ha hba => ?_
    simp only [hdesc t _ hb, hdesc t _ ha]
    exact hba

/-- What one thread notes, the others still have. -/
theorem update_eq_some_iff {T A : Type} [DecidableEq T] {f : T → Option A} {t v : T}
    {x : Option A} {b : A} :
    update f t x v = some b ↔ v = t ∧ x = some b ∨ v ≠ t ∧ f v = some b := by
  by_cases hv : v = t
  · subst hv
    simp
  · simp [hv]

section Range

variable {T A : Type} [FinEnum T] {h h' : Huge T A} {id : T} {size : ℕ} {d : Descriptor}

omit [FinEnum T] in
/-- Claiming slots does not look at descriptors. -/
theorem Huge.claimSlot_desc (h : Huge T A) (desc : A → Descriptor) (count n i : ℕ) :
    Huge.claimSlot id count { h with desc := desc } n i =
      (Huge.claimSlot id count h n i).map fun r => (r.1, { r.2 with desc := desc }) := by
  induction n generalizing i with
  | zero => rfl
  | succ n ih =>
    rw [Huge.claimSlot, Huge.claimSlot]
    split_ifs with hle
    · cases hs : h.slots i with
      | none => rfl
      | some claim => exact ih (i + claim.slotCount)
    · rfl

theorem Huge.claim_desc (h : Huge T A) (desc : A → Descriptor) :
    Huge.claim id size { h with desc := desc } =
      (h.claim id size).map fun h' => { h' with desc := desc } := by
  rw [Huge.claim, Huge.claim, Huge.claimSlot_desc]
  cases Huge.claimSlot id (nextMultipleOf size sizeSlot / sizeSlot) h (slotsLen + 1) h.hint with
  | error e => rfl
  | ok r => rfl

/-- Nor does reserving a range. -/
theorem Huge.allocateRange_desc (desc : A → Descriptor) {n : ℕ}
    (hal : h.allocateRange id size n = .ok (d, h')) :
    Huge.allocateRange id size n { h with desc := desc } = .ok (d, { h' with desc := desc }) := by
  induction n generalizing h with
  | zero => cases hal
  | succ n ih =>
    rw [Huge.allocateRange] at hal ⊢
    obtain ⟨r, hf, hal⟩ := bind_eq_ok hal
    rw [hf, ok_bind]
    cases r with
    | none =>
      obtain ⟨h₁, hc, hal⟩ := bind_eq_ok hal
      dsimp only
      rw [Huge.claim_desc, hc]
      exact ih hal
    | some r =>
      obtain ⟨rfl, rfl⟩ := ok_inj hal
      rfl

/-- Reserving a range leaves the others' free sets and claims alone. -/
theorem HugeInv.allocateRange_other (inv : HugeInv h) {n : ℕ} (hsize : 0 < size)
    (hal : h.allocateRange id size n = .ok (d, h')) :
    (∀ v, v ≠ id → h'.dram v = h.dram v) ∧ ∀ v, h.claimed v ⊆ h'.claimed v := by
  induction n generalizing h with
  | zero => cases hal
  | succ n ih =>
    rcases Huge.allocateRange_succ hal with ⟨h₁, hclaim, hal⟩ | ⟨offset, hf, rfl, rfl⟩
    · obtain ⟨rfl, inv₁⟩ := inv.claim_ok hsize hclaim
      obtain ⟨hdram, hclaimed⟩ := ih inv₁ hal
      refine ⟨fun v hv => (hdram v hv).trans (update_of_ne hv _ _), fun v x hx => ?_⟩
      exact hclaimed v (inv.mem_claimed_grown.mpr (.inl hx))
    · exact ⟨fun v hv => update_of_ne hv _ _, fun _ _ hx => hx⟩

end Range

namespace HugeMem

variable {T A : Type} {m m' : HugeMem T A} {t u v : T} {a b : A}

/-- The heap, where a descriptor that has no range yet counts as `Safe`. -/
def settled (m : HugeMem T A) : Huge T A :=
  { m.toHuge with
    desc := fun a => if m.stale a then { m.desc a with state := .safe } else m.desc a }

/-- On the list of some thread. -/
def Listed (m : HugeMem T A) (a : A) : Prop :=
  ∃ v, a ∈ m.list v

/-- Marked `Live`, and with its range. -/
def Live (m : HugeMem T A) (a : A) : Prop :=
  (m.desc a).state = .live ∧ m.stale a = false

/-- With a range that is in no free set. -/
def InUse (m : HugeMem T A) (a : A) : Prop :=
  (m.desc a).state ≠ .safe ∧ m.stale a = false

theorem settled_eq (h : m.stale a = false) : m.settled.desc a = m.desc a := by
  simp [settled, h]

theorem settled_inUse : (m.settled.desc a).InUse ↔ m.InUse a := by
  cases h : m.stale a with
  | false => simp [settled, InUse, Descriptor.InUse, h]
  | true => simp [settled, InUse, Descriptor.InUse, h]

theorem settled_range : (m.settled.desc a).range = (m.desc a).range := by
  cases h : m.stale a with
  | false => simp [settled, h]
  | true => simp [settled, h, Descriptor.range]

theorem settled_size : (m.settled.desc a).size = (m.desc a).size := by
  cases h : m.stale a with
  | false => simp [settled, h]
  | true => simp [settled, h]

theorem Live.inUse (h : m.Live a) : m.InUse a :=
  ⟨by simp [h.1], h.2⟩

/-- What holds between any two steps. -/
structure Sound (m : HugeMem T A) : Prop where
  heap : HugeInv m.settled
  stale : ∀ a, m.stale a = true → (m.desc a).state = .live
  /-- A hazard keeps its range in use. -/
  hazard : ∀ v, ∀ x ∈ m.hazards v, ∃ a, m.Listed a ∧ m.InUse a ∧ (m.desc a).offset = x
  handed : ∀ a, m.handed a = true → m.Listed a ∧ m.Live a
  freeing : ∀ v a, m.freeing v = some a → m.Listed a ∧ m.Live a ∧ m.handed a = false
  freeingOnce : ∀ v w a, m.freeing v = some a → m.freeing w = some a → v = w
  faulting : ∀ v a, m.faulting v = some a → m.handed a = true
  unmapping : ∀ v a, m.unmapping v = some a → m.Listed a ∧ (m.desc a).state = .free
  block : ∀ v b, m.block v = some b → ¬ m.Listed b
  blockOnce : ∀ v w b, m.block v = some b → m.block w = some b → v = w

/-- On the list of a thread, or about to be. -/
def Mine (t : T) (a : A) (m : HugeMem T A) : Prop :=
  a ∈ m.list t ∨ m.block t = some a

/-- What a thread has a pointer into. -/
def Using (t : T) (a : A) (m : HugeMem T A) : Prop :=
  m.freeing t = some a ∨ m.faulting t = some a

namespace Sound

theorem inUse_of_free (hm : m.Sound) (hfree : (m.desc a).state = .free) : m.InUse a := by
  refine ⟨by simp [hfree], Bool.eq_false_iff.mpr fun hstale => ?_⟩
  have := hm.stale a hstale
  rw [hfree] at this
  cases this

theorem using_live (hm : m.Sound) (h : Using t a m) : m.Listed a ∧ m.Live a := by
  rcases h with h | h
  · obtain ⟨hl, hlive, -⟩ := hm.freeing t a h
    exact ⟨hl, hlive⟩
  · exact hm.handed a (hm.faulting t a h)

theorem mine_unique (hm : m.Sound) (ht : Mine t a m) (hu : Mine u a m) : t = u := by
  rcases ht with ht | ht
  · rcases hu with hu | hu
    · exact hm.heap.disjoint t u a ht hu
    · exact absurd ⟨t, ht⟩ (hm.block u a hu)
  · rcases hu with hu | hu
    · exact absurd ⟨u, hu⟩ (hm.block t a ht)
    · exact hm.blockOnce t u a ht hu

theorem pos (hm : m.Sound) (ha : m.Listed a) (ua : m.InUse a) : 0 < (m.desc a).size := by
  obtain ⟨v, ha⟩ := ha
  rw [← settled_size]
  exact hm.heap.pos v a ha (settled_inUse.mpr ua)

/-- Ranges in use do not meet. -/
theorem disjoint (hm : m.Sound) (ha : m.Listed a) (hb : m.Listed b) (hab : a ≠ b)
    (ua : m.InUse a) (ub : m.InUse b) : Disjoint (m.desc a).range (m.desc b).range := by
  obtain ⟨v, ha⟩ := ha
  obtain ⟨w, hb⟩ := hb
  rw [← settled_range, ← settled_range (a := b)]
  have ua := settled_inUse.mpr ua
  have ub := settled_inUse.mpr ub
  by_cases hvw : v = w
  · subst hvw
    exact hm.heap.ranges_disjoint ha hb hab ua ub
  · refine Finset.disjoint_left.mpr fun x hxa hxb => hvw ?_
    exact hm.heap.claimed_disjoint (hm.heap.claimed v a ha ua hxa) (hm.heap.claimed w b hb ub hxb)

/-- An offset belongs to one range in use. -/
theorem offset_unique (hm : m.Sound) (ha : m.Listed a) (hb : m.Listed b) (ua : m.InUse a)
    (ub : m.InUse b) (h : (m.desc a).offset = (m.desc b).offset) : a = b := by
  by_contra hab
  have hdisj := hm.disjoint ha hb hab ua ub
  have hpa := hm.pos ha ua
  have hpb := hm.pos hb ub
  have hx : (m.desc a).offset ∈ (m.desc a).range := Finset.mem_Ico.mpr ⟨le_rfl, by omega⟩
  exact Finset.disjoint_left.mp hdisj hx (Finset.mem_Ico.mpr ⟨h.ge, by omega⟩)

/-- What a thread is about to unmap, nobody was handed out. -/
theorem unmapping_disjoint (hm : m.Sound) (ha : m.unmapping t = some a) (hb : m.Listed b)
    (hlive : m.Live b) : Disjoint (m.desc b).range (m.desc a).range := by
  obtain ⟨hl, hfree⟩ := hm.unmapping t a ha
  have hab : b ≠ a := by
    rintro rfl
    rw [hlive.1] at hfree
    cases hfree
  exact hm.disjoint hb hl hab hlive.inUse (hm.inUse_of_free hfree)

/-- The owner of a range in use is the thread whose slot it is in. -/
theorem findOwner_eq (hm : m.Sound) (ha : a ∈ m.list v) (ua : m.InUse a) {x : ℕ}
    (hx : x ∈ (m.desc a).range) : m.toHuge.findOwner x = some v := by
  rw [← settled_range] at hx
  have howner := hm.heap.findOwner_eq (hm.heap.claimed v a ha (settled_inUse.mpr ua) hx)
  have hclaim : ∀ n, m.settled.findClaim n = m.toHuge.findClaim n := by
    intro n
    induction n with
    | zero => rfl
    | succ n ih =>
      rw [Huge.findClaim, Huge.findClaim, ih]
      rfl
  rw [Huge.findOwner, hclaim] at howner
  exact howner

/-- A walk meets no range with the offset before the one in use. -/
theorem front (hm : m.Sound) {pre post : List A} (hl : pre ++ a :: post <:+ m.list v)
    (ua : m.InUse a) {x : ℕ} (hx : x ∈ (m.desc a).range) (hb : b ∈ pre) : x ∉ (m.desc b).range := by
  have hord := (hm.heap.order v).sublist hl.sublist
  have hd := (List.pairwise_append.mp hord).2.2 b hb a List.mem_cons_self (settled_inUse.mpr ua)
  rw [settled_range, settled_range] at hd
  exact fun hxb => Finset.disjoint_left.mp hd hxb hx

end Sound

/-- Writing a descriptor that has its range. -/
theorem settled_write [DecidableEq A] {d : Descriptor} {stale : A → Bool} (ha : stale a = false)
    (hother : ∀ b, b ≠ a → stale b = m.stale b) :
    (fun b => if stale b then { update m.desc a d b with state := .safe } else update m.desc a d b) =
      update m.settled.desc a d := by
  funext b
  by_cases hb : b = a
  · subst hb
    simp [ha]
  · simp only [update_of_ne hb, hother b hb]
    rfl

theorem Live.congr (h : m.Live b) (hdesc : m'.desc b = m.desc b) (hstale : m'.stale b = m.stale b) :
    m'.Live b := by
  rw [Live, hdesc, hstale]
  exact h

theorem InUse.congr (h : m.InUse b) (hdesc : m'.desc b = m.desc b)
    (hstale : m'.stale b = m.stale b) : m'.InUse b := by
  rw [InUse, hdesc, hstale]
  exact h

/-! ### What a step does -/

/-- What a step of another thread leaves as it is. -/
structure Untouched (v : T) (m m' : HugeMem T A) : Prop where
  list : m'.list v = m.list v
  dram : m'.dram v = m.dram v
  hazards : m'.hazards v = m.hazards v
  block : m'.block v = m.block v
  freeing : m'.freeing v = m.freeing v
  faulting : m'.faulting v = m.faulting v
  unmapping : m'.unmapping v = m.unmapping v

/-- What a step of `u` does to a descriptor. -/
inductive Change (u : T) (m m' : HugeMem T A) (a : A) : Prop
  | same (hdesc : m'.desc a = m.desc a) (hstale : m'.stale a = m.stale a)
  | freed (hfreeing : m.freeing u = some a) (hdesc : m'.desc a = { m.desc a with state := .free })
      (hstale : m'.stale a = m.stale a)
  | retired (hlist : a ∈ m.list u) (hfree : (m.desc a).state = .free)
      (hclear : ∀ v, (m.desc a).offset ∉ m.hazards v) (hguard : ∀ v, m.unmapping v ≠ some a)
      (hdesc : m'.desc a = { m.desc a with state := .safe }) (hstale : m'.stale a = m.stale a)
  | marked (hmine : Mine u a m) (hunused : m.Listed a → ¬ m.InUse a)
      (hdesc : m'.desc a = { m.desc a with state := .live }) (hstale : m'.stale a = true)
  | filled (hmine : Mine u a m) (hunused : m.Listed a → ¬ m.InUse a) (hlive : m'.Live a)

/-- What a step of `u` does. -/
structure Acts (u : T) (m m' : HugeMem T A) : Prop where
  other : ∀ v, v ≠ u → Untouched v m m'
  list : m.list u <:+ m'.list u
  change : ∀ a, Change u m m' a
  handed : ∀ a, m'.handed a = m.handed a ∨ Mine u a m ∨
    m.handed a = true ∧ m'.handed a = false
  freeing : ∀ a, m'.freeing u = some a → m.freeing u = some a ∨ m.handed a = true
  hazard : ∀ x ∈ m'.hazards u, x ∈ m.hazards u ∨
    ∃ b, m.InUse b ∧ (m.desc b).offset = x ∧ (b ∈ m.list u ∨ m.Listed b ∧ m.Live b)
  claimed : ∀ v, m.claimed v ⊆ m'.claimed v

namespace Acts

theorem refl (u : T) (m : HugeMem T A) : Acts u m m where
  other _ _ := ⟨rfl, rfl, rfl, rfl, rfl, rfl, rfl⟩
  list := List.suffix_rfl
  change _ := .same rfl rfl
  handed _ := .inl rfl
  freeing _ h := .inl h
  hazard _ h := .inl h
  claimed _ _ h := h

theorem suffix (h : Acts u m m') (v : T) : m.list v <:+ m'.list v := by
  classical
  by_cases hv : v = u
  · exact hv ▸ h.list
  · rw [(h.other v hv).list]

theorem listed (h : Acts u m m') (ha : m.Listed a) : m'.Listed a := by
  obtain ⟨v, ha⟩ := ha
  exact ⟨v, (h.suffix v).subset ha⟩

/-- A thread's own descriptors are only freed by the others. -/
theorem own (h : Acts u m m') (hm : m.Sound) (htu : u ≠ t) (ha : Mine t a m) :
    m'.stale a = m.stale a ∧ (m'.desc a = m.desc a ∨
      m.freeing u = some a ∧ m.Live a ∧ m'.desc a = { m.desc a with state := .free }) := by
  cases h.change a with
  | same hdesc hstale => exact ⟨hstale, .inl hdesc⟩
  | freed hfreeing hdesc hstale =>
    exact ⟨hstale, .inr ⟨hfreeing, (hm.freeing u a hfreeing).2.1, hdesc⟩⟩
  | retired hlist => exact absurd (hm.mine_unique (.inl hlist) ha) htu
  | marked hmine => exact absurd (hm.mine_unique hmine ha) htu
  | filled hmine => exact absurd (hm.mine_unique hmine ha) htu

theorem own_range (h : Acts u m m') (hm : m.Sound) (htu : u ≠ t) (ha : Mine t a m) :
    (m'.desc a).offset = (m.desc a).offset ∧ (m'.desc a).range = (m.desc a).range := by
  rcases (h.own hm htu ha).2 with hd | ⟨-, -, hd⟩
  · rw [hd]
    exact ⟨rfl, rfl⟩
  · rw [hd]
    exact ⟨rfl, rfl⟩

theorem own_inUse (h : Acts u m m') (hm : m.Sound) (htu : u ≠ t) (ha : Mine t a m) :
    m'.InUse a ↔ m.InUse a := by
  obtain ⟨hstale, hd⟩ := h.own hm htu ha
  rw [InUse, InUse, hstale]
  rcases hd with hd | ⟨-, hlive, hd⟩
  · rw [hd]
  · simp [hd, hlive.1]

/-- A descriptor that is not `Live` is left to its owner. -/
theorem own_eq (h : Acts u m m') (hm : m.Sound) (htu : u ≠ t) (ha : Mine t a m)
    (hlive : ¬ m.Live a) : m'.desc a = m.desc a ∧ m'.stale a = m.stale a := by
  obtain ⟨hstale, hd | ⟨-, hl, -⟩⟩ := h.own hm htu ha
  · exact ⟨hd, hstale⟩
  · exact absurd hl hlive

/-- What a thread uses stays as it is. -/
theorem used (h : Acts u m m') (hm : m.Sound) (htu : u ≠ t) (ha : Using t a m) :
    Using t a m' ∧ m'.desc a = m.desc a := by
  have ht := h.other t htu.symm
  refine ⟨by rw [Using, ht.freeing, ht.faulting]; exact ha, ?_⟩
  obtain ⟨hl, hlive⟩ := hm.using_live ha
  cases h.change a with
  | same hdesc => exact hdesc
  | freed hfreeing =>
    rcases ha with ha | ha
    · exact absurd (hm.freeingOnce u t a hfreeing ha) htu
    · have := (hm.freeing u a hfreeing).2.2
      rw [hm.faulting t a ha] at this
      cases this
  | retired _ hfree =>
    rw [hlive.1] at hfree
    cases hfree
  | marked _ hunused => exact absurd hlive.inUse (hunused hl)
  | filled _ hunused => exact absurd hlive.inUse (hunused hl)

/-- What is about to be unmapped stays as it is. -/
theorem dropped (h : Acts u m m') (hm : m.Sound) (ha : m.unmapping t = some a) :
    m'.desc a = m.desc a := by
  obtain ⟨hl, hfree⟩ := hm.unmapping t a ha
  cases h.change a with
  | same hdesc => exact hdesc
  | freed hfreeing =>
    rw [(hm.freeing u a hfreeing).2.1.1] at hfree
    cases hfree
  | retired _ _ _ hguard => exact absurd ha (hguard t)
  | marked _ hunused => exact absurd (hm.inUse_of_free hfree) (hunused hl)
  | filled _ hunused => exact absurd (hm.inUse_of_free hfree) (hunused hl)

/-- A range on which somebody has a hazard stays in use. -/
theorem kept (h : Acts u m m') (hl : m.Listed b) (ub : m.InUse b)
    (hx : (m.desc b).offset ∈ m.hazards v) :
    m'.InUse b ∧ (m'.desc b).offset = (m.desc b).offset := by
  cases h.change b with
  | same hdesc hstale =>
    rw [InUse, hdesc, hstale]
    exact ⟨ub, rfl⟩
  | freed _ hdesc hstale =>
    rw [InUse, hdesc, hstale]
    exact ⟨⟨by simp, ub.2⟩, rfl⟩
  | retired _ _ hclear => exact absurd hx (hclear v)
  | marked _ hunused => exact absurd ub (hunused hl)
  | filled _ hunused => exact absurd ub (hunused hl)

/-- A descriptor that was `Free` still is, or the thread has no hazard on its range. -/
theorem cleared (h : Acts u m m') (hm : m.Sound) (hm' : m'.Sound) (htu : u ≠ t)
    (ha : m.Listed a) (hclear : (m.desc a).state = .free ∨ (m.desc a).offset ∉ m.hazards t) :
    (m'.desc a).state = .free ∨ (m'.desc a).offset ∉ m'.hazards t := by
  rw [(h.other t htu.symm).hazards]
  cases h.change a with
  | same hdesc => rwa [hdesc]
  | freed _ hdesc =>
    rw [hdesc]
    exact .inl rfl
  | retired _ _ hnone _ hdesc =>
    rw [hdesc]
    exact .inr (hnone t)
  | marked _ hunused hdesc =>
    rw [hdesc]
    exact .inr (hclear.resolve_left fun hfree => hunused ha (hm.inUse_of_free hfree))
  | filled _ hunused hlive =>
    -- a hazard on the new range would be one on a range in use elsewhere
    refine .inr fun hx => ?_
    obtain ⟨b, hb, ub, hoff⟩ := hm.hazard t _ hx
    obtain ⟨ub', hoff'⟩ := h.kept hb ub (hoff ▸ hx)
    obtain rfl := hm'.offset_unique (h.listed hb) (h.listed ha) ub' hlive.inUse (hoff'.trans hoff)
    exact hunused ha ub

/-- What a thread has found to be without hazards stays so, as long as it is `Free`. -/
theorem scanned (h : Acts u m m') (hm : m.Sound) (htu : u ≠ t) (ha : a ∈ m.list t)
    (hfree : (m.desc a).state = .free) (hv : (m.desc a).offset ∉ m.hazards v) :
    (m.desc a).offset ∉ m'.hazards v := by
  classical
  by_cases hvu : v = u
  · subst hvu
    intro hx
    rcases h.hazard _ hx with hx | ⟨b, ub, hoff, hb⟩
    · exact hv hx
    · have hlb : m.Listed b := hb.elim (fun hb => ⟨v, hb⟩) fun hb => hb.1
      obtain rfl := hm.offset_unique hlb ⟨t, ha⟩ ub (hm.inUse_of_free hfree) hoff
      rcases hb with hb | ⟨-, hlive⟩
      · exact htu (hm.heap.disjoint v t b hb ha)
      · rw [hlive.1] at hfree
        cases hfree
  · rw [(h.other v hvu).hazards]
    exact hv

/-- A block nobody was given stays with the thread that allocates it. -/
theorem reserved (h : Acts u m m') (hm : m.Sound) (htu : u ≠ t) (ha : Mine t a m)
    (hhanded : m.handed a = false) (hfreeing : ∀ v, m.freeing v ≠ some a) :
    m'.desc a = m.desc a ∧ m'.handed a = false ∧ ∀ v, m'.freeing v ≠ some a := by
  classical
  refine ⟨?_, ?_, fun v hv => ?_⟩
  · rcases (h.own hm htu ha).2 with hd | ⟨hf, -⟩
    · exact hd
    · exact absurd hf (hfreeing u)
  · rcases h.handed a with hh | hmine | ⟨hh, -⟩
    · rw [hh, hhanded]
    · exact absurd (hm.mine_unique hmine ha) htu
    · rw [hh] at hhanded
      cases hhanded
  · by_cases hvu : v = u
    · subst hvu
      rcases h.freeing a hv with hf | hh
      · exact hfreeing v hf
      · rw [hh] at hhanded
        cases hhanded
    · rw [(h.other v hvu).freeing] at hv
      exact hfreeing v hv

end Acts

end HugeMem

end Cxlalloc
