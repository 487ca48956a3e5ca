/-
Huge requests near the top of the address range.

As long as the request, rounded up to slots, fits a `usize`, nothing on the way of an
allocation wraps, and the release build does what the exact model does (`HugeInv` bounds every
range by the claimed slots, which end far below `2 ^ 64`).  A request above that is rounded to
no slots at all: a claim of no slots is recorded, and the hint stays in front of it, so that
every later walk stands still there.
-/
import Cxlalloc.Wrapping
import Cxlalloc.Proofs.Huge

namespace Cxlalloc.Wrapping

open Function
open Relation

variable {T A : Type} {h h' : Huge T A} {id t : T} {a : A} {size offset : ℕ}

section Bind

variable {α β : Type} {f : α → Huge T A → Outcome T A β}

theorem bind_ok {a : α} : Outcome.bind (.ok a, h) f = f a h := rfl

theorem bind_error {e : Panic} : Outcome.bind (.error e, h) f = (.error e, h) := rfl

end Bind

/-! ### Where nothing wraps -/

theorem usize_eq {n : ℕ} (h : n < 2 ^ 64) : usize n = n :=
  Nat.mod_eq_of_lt h

/-- An interval below `2 ^ 64` is the one that is meant. -/
theorem allocation_eq (hsize : 0 < size) (hle : offset + size ≤ 2 ^ 64) :
    allocation offset size = Finset.Ico offset (offset + size) := by
  have hupper : usize (2 ^ 64 - 1 + (offset + size)) = offset + size - 1 := by
    rw [usize]
    omega
  ext x
  rw [allocation, hupper, Finset.mem_Icc, Finset.mem_Ico]
  omega

/-- Claimed addresses are far below `2 ^ 64`. -/
theorem claimed_lt (inv : HugeInv h) {x : ℕ} (hx : x ∈ h.claimed t) : x < 2 ^ 40 :=
  lt_of_lt_of_le (inv.claimed_lt hx)
    ((Nat.mul_le_mul_right sizeSlot inv.slots.hint_le).trans (by decide))

/-- So is the end of an interval of them. -/
theorem end_le (inv : HugeInv h) (hsize : 0 < size)
    (hsub : ↑(Finset.Ico offset (offset + size)) ⊆ h.claimed t) : offset + size ≤ 2 ^ 40 := by
  have hmem : offset + size - 1 ∈ Finset.Ico offset (offset + size) := by
    rw [Finset.mem_Ico]
    omega
  have := claimed_lt inv (hsub hmem)
  omega

theorem allocateRange_eq (inv : HugeInv h) (hsize : 0 < size) :
    allocateRange (h.dram id) size = (h.dram id).allocate size := by
  rw [Dram.allocate_eq]
  cases hf : Dram.firstFit (h.dram id).free size with
  | none => rw [allocateRange, hf]
  | some offset =>
    have hfree := Dram.firstFit_subset hf
    have hsub : ↑(Finset.Ico offset (offset + size)) ⊆ h.claimed id :=
      fun x hx => inv.freeClaimed id (hfree hx)
    have hrange := allocation_eq hsize ((end_le inv hsize hsub).trans (by decide))
    simp only [allocateRange, hf, cover, hrange, if_pos hfree]

variable [FinEnum T] [DecidableEq A]

theorem reuseOne_eq (inv : HugeInv h) (ha : a ∈ h.list id) (safe : Option A) :
    reuseOne id (h, safe) a = Huge.reuseOne id (h, safe) a := by
  cases hs : (h.desc a).state with
  | live => simp only [reuseOne, Huge.reuseOne, hs]
  | safe => simp only [reuseOne, Huge.reuseOne, hs]
  | free =>
    have ua : (h.desc a).InUse := by
      rw [Descriptor.InUse, hs]
      decide
    have hsize := inv.pos id a ha ua
    have hrange := allocation_eq hsize
      ((end_le inv hsize (inv.claimed id a ha ua)).trans (by decide))
    simp only [reuseOne, Huge.reuseOne, hs, uncover, Dram.uncover, hrange]

theorem reuse_eq (inv : HugeInv h) : reuse id h = h.reuse id := by
  have hfold : ∀ (l : List A) (g : Huge T A) (safe : Option A), HugeInv g →
      (∀ a ∈ l, a ∈ g.list id) →
      l.foldl (reuseOne id) (g, safe) = l.foldl (Huge.reuseOne id) (g, safe) := by
    intro l
    induction l with
    | nil =>
      intro g safe _ _
      rw [List.foldl_nil, List.foldl_nil]
    | cons a l ih =>
      intro g safe inv hl
      have ha := hl a List.mem_cons_self
      obtain ⟨g', safe', hone, inv', htrim, -⟩ := inv.reuseOne ha safe
      rw [List.foldl_cons, List.foldl_cons, reuseOne_eq inv ha, hone]
      exact ih g' safe' inv' fun b hb => htrim.list ▸ hl b (List.mem_cons_of_mem a hb)
  rw [reuse, Huge.reuse]
  exact hfold (h.list id) h none inv fun _ ha => ha

omit [FinEnum T] [DecidableEq A] in
/-- The slot at the hint is free, so the first attempt to claim `n` slots succeeds if there is
room at all. -/
theorem claimSlot_hint (inv : HugeInv h) {n : ℕ} (hn : n < 2 ^ 63) :
    claimSlot id n h (slotsLen + 1) h.hint =
      if h.hint + n ≤ slotsLen then
        if h.hint < slotsLen then
          (.ok h.hint, { h with
            slots := update h.slots h.hint (some { id := id, slotCount := n })
            hint := h.hint + n })
        else (.error .outOfBounds, h)
      else (.error .outOfAddressSpace, h) := by
  have hhint := inv.slots.hint_le
  have hlen : slotsLen = 1024 := rfl
  rw [claimSlot, inv.slot_hint, usize_eq (by omega)]

/-- The range of the slots just claimed. -/
theorem claimRange_eq {d : Dram} {slot n : ℕ} (hpos : 0 < n) (hle : slot + n ≤ slotsLen) :
    claimRange d slot n = d.claim slot n := by
  have hbytes : (slot + n) * sizeSlot ≤ 2 ^ 40 :=
    (Nat.mul_le_mul_right sizeSlot hle).trans (by decide)
  rw [Nat.add_mul] at hbytes
  have hrange : 0 < n * sizeSlot := Nat.mul_pos hpos (by decide)
  rw [claimRange, Dram.claim, uncover, Dram.uncover, usize_eq (by omega), usize_eq (by omega),
    allocation_eq hrange (by omega)]

theorem slotCount_eq (hfits : Cxlalloc.nextMultipleOf size sizeSlot < 2 ^ 64) :
    slotCount size = Cxlalloc.slotCount size := by
  rw [slotCount, nextMultipleOf, usize_eq hfits, Cxlalloc.slotCount]

theorem slotCount_lt (hfits : Cxlalloc.nextMultipleOf size sizeSlot < 2 ^ 64) :
    Cxlalloc.slotCount size < 2 ^ 63 := by
  refine (Nat.div_lt_iff_lt_mul (by decide)).mpr (hfits.trans_le ?_)
  rw [sizeSlot, ← Nat.pow_add]
  exact Nat.pow_le_pow_right (by decide) (by decide)

omit [DecidableEq A] in
theorem claim_eq (inv : HugeInv h) (hsize : 0 < size)
    (hfits : Cxlalloc.nextMultipleOf size sizeSlot < 2 ^ 64) :
    claim id size h =
      if h.hint + Cxlalloc.slotCount size ≤ slotsLen then
        (.ok (), h.grown id (Cxlalloc.slotCount size))
      else (.error .outOfAddressSpace, h) := by
  have hpos := slotCount_pos hsize
  rw [claim, slotCount_eq hfits, claimSlot_hint inv (slotCount_lt hfits)]
  generalize Cxlalloc.slotCount size = n at hpos ⊢
  by_cases hle : h.hint + n ≤ slotsLen
  · rw [if_pos hle, if_pos hle, if_pos (by omega), bind_ok, claimRange_eq hpos hle]
    rfl
  · rw [if_neg hle, if_neg hle, bind_error]

/-- The loop of `Huge::allocate` ends: it reserves a range, or gives up and has changed
nothing. -/
def Reserves (h : Huge T A) (id : T) (size : ℕ) : Prop :=
  (∃ d h', allocateLoop id size 2 h = (.ok d, h') ∧ HugeInv.Reserved h id size d h') ∨
    ∃ e, e ≠ .diverge ∧ allocateLoop id size 2 h = (.error e, h)

omit [DecidableEq A] in
/-- Two rounds are enough. -/
theorem reserves (inv : HugeInv h) (id : T) (hsize : 0 < size)
    (hfits : Cxlalloc.nextMultipleOf size sizeSlot < 2 ^ 64) : Reserves h id size := by
  have hok : ∀ (n : ℕ) (g g' : Huge T A) (d : Descriptor), HugeInv g →
      g.allocateRange id size n = .ok (d, g') → allocateLoop id size n g = (.ok d, g') := by
    intro n
    induction n with
    | zero => intro g g' d _ hal; cases hal
    | succ n ih =>
      intro g g' d inv hal
      rw [Huge.allocateRange] at hal
      rw [allocateLoop, allocateRange_eq inv hsize]
      rw [Dram.allocate_eq] at hal ⊢
      cases hf : Dram.firstFit (g.dram id).free size with
      | none =>
        rw [hf, ok_bind, inv.claim_eq] at hal
        dsimp only
        rw [claim_eq inv hsize hfits]
        by_cases hle : g.hint + Cxlalloc.slotCount size ≤ slotsLen
        · rw [if_pos hle, ok_bind] at hal
          rw [if_pos hle, bind_ok]
          exact ih _ g' d (inv.grown (slotCount_pos hsize) hle) hal
        · rw [if_neg hle, error_bind] at hal
          cases hal
      | some offset =>
        rw [hf, ok_bind] at hal
        obtain ⟨rfl, rfl⟩ := ok_inj hal
        rfl
  rcases inv.allocateRange_two id hsize with ⟨d, h', hal, -⟩ | ⟨hal, hfull⟩
  · exact .inl ⟨d, h', hok 2 h h' d inv hal, inv.allocateRange hsize hal⟩
  · refine .inr ⟨.outOfAddressSpace, by decide, ?_⟩
    rw [allocateLoop, allocateRange_eq inv hsize]
    rw [Huge.allocateRange] at hal
    rw [Dram.allocate_eq] at hal ⊢
    cases hf : Dram.firstFit (h.dram id).free size with
    | none =>
      dsimp only
      rw [claim_eq inv hsize hfits, if_neg (by omega), bind_error]
    | some offset =>
      rw [hf, ok_bind] at hal
      cases hal

/-! ### A request that fits -/

/-- What an allocation does when nothing wraps: it fails and has claimed nothing, or there is a
live range of the size for it. -/
structure Settled (h : Huge T A) (id : T) (size : ℕ) (r : Outcome T A ℕ) : Prop where
  inv : HugeInv r.2
  terminates : r.1 ≠ .error .diverge
  outcome : ((∃ e, r.1 = .error e) ∧ r.2.slots = h.slots) ∨
    ∃ a ∈ r.2.list id, (r.2.desc a).state = .live ∧ (r.2.desc a).size = size ∧
      ∀ offset, r.1 = .ok offset → (r.2.desc a).offset = offset
  old : ∀ t, ∀ a ∈ h.list t, (h.desc a).state = .live → a ∈ r.2.list t ∧ r.2.desc a = h.desc a

theorem publish_eq (reuse : Bool) (out : A) (d : Descriptor) :
    publish id out reuse d h = { h with
      desc := update h.desc out d
      list := update h.list id (if reuse then h.list id else out :: h.list id) } := by
  rw [publish]
  cases reuse with
  | true => rw [if_pos rfl, if_pos rfl, update_eq_self]
  | false => rfl

variable {validate : Bool}

omit [DecidableEq A] in
theorem insertHazard_ne_diverge : h.insertHazard validate id offset ≠ .error .diverge := by
  rw [Huge.insertHazard]
  split_ifs <;> exact fun h => by cases h

theorem allocate_settled (inv : HugeInv h) (hsize : 0 < size)
    (hreserves : ∀ hz, Reserves { h with hazards := hz } id size) {validate reuse : Bool} {out : A}
    {pre post : List A} (vacant : HugeInv.Vacant h id out reuse pre post) :
    Settled h id size (allocate validate id size out reuse h) := by
  obtain ⟨hz, hrefresh, -⟩ := Huge.refresh_eq h id
  rw [allocate, hrefresh]
  rcases hreserves hz with ⟨d, h₁, hloop, res⟩ | ⟨e, he, hloop⟩
  · rw [hloop, bind_ok, publish_eq]
    have vacant' : HugeInv.Vacant { h with hazards := hz } id out reuse pre post :=
      ⟨vacant.list, vacant.front, vacant.owner, vacant.safe, vacant.sub, vacant.new⟩
    -- the descriptor is there, whatever becomes of the hazard
    have hsettled : ∀ hz' (r : Except Panic ℕ), r ≠ .error .diverge →
        (∀ offset, r = .ok offset → d.offset = offset) →
        Settled h id size (r, { h₁ with
          desc := update h₁.desc out d
          list := update h₁.list id (if reuse then h₁.list id else out :: h₁.list id)
          hazards := hz' }) := by
      intro hz' r hr hoffset
      have hplaced := res.publish hsize vacant' hz'
      have hdesc : update h₁.desc out d out = d := update_self _ _ _
      refine ⟨hplaced.inv, hr, .inr ⟨out, ?_, ?_⟩, hplaced.old⟩
      · show out ∈ update h₁.list id (if reuse then h₁.list id else out :: h₁.list id) id
        have hl₁ : h₁.list = h.list := res.list
        rw [update_self, hl₁, vacant.list]
        exact List.mem_append_right _ List.mem_cons_self
      · show (update h₁.desc out d out).state = _ ∧ (update h₁.desc out d out).size = _ ∧
          ∀ offset, r = .ok offset → (update h₁.desc out d out).offset = offset
        rw [hdesc]
        exact ⟨res.live, res.size, hoffset⟩
    dsimp only
    split
    · rename_i e hins
      refine hsettled h₁.hazards (.error e) ?_ fun _ h => by cases h
      intro h
      obtain rfl := Except.error.inj h
      exact insertHazard_ne_diverge hins
    · rename_i h₂ hins
      obtain ⟨hz', rfl⟩ := Huge.insertHazard_eq hins
      exact hsettled hz' (.ok d.offset) (fun h => by cases h) fun _ h => Except.ok.inj h
  · rw [hloop, bind_error]
    exact ⟨inv.hazards hz, fun h => he (Except.error.inj h), .inl ⟨⟨_, rfl⟩, rfl⟩,
      fun t a ha _ => ⟨ha, rfl⟩⟩

/-- `reuse` claims nothing. -/
theorem reuse_slots : (h.reuse id).1.slots = h.slots := by
  have hfold : ∀ (l : List A) (r : Huge T A × Option A),
      (l.foldl (Huge.reuseOne id) r).1.slots = r.1.slots := by
    intro l
    induction l with
    | nil => exact fun _ => rfl
    | cons a l ih =>
      intro r
      rw [List.foldl_cons, ih, Huge.reuseOne]
      split
      · rfl
      · split_ifs <;> rfl
      · rfl
  exact hfold (h.list id) (h, none)

omit [FinEnum T] [DecidableEq A] in
theorem Settled.of_trimmed {h₁ : Huge T A} {r : Outcome T A ℕ} (htrim : h.Trimmed h₁)
    (hslots : h₁.slots = h.slots) (hr : Settled h₁ id size r) : Settled h id size r := by
  refine ⟨hr.inv, hr.terminates, ?_, fun t a ha hlive => ?_⟩
  · rw [← hslots]
    exact hr.outcome
  · have hsame := htrim.live hlive
    obtain ⟨hmem, hdesc⟩ := hr.old t a (htrim.list ▸ ha) (hsame ▸ hlive)
    exact ⟨hmem, hdesc.trans hsame⟩

/-! ### A request that wraps -/

omit [FinEnum T] [DecidableEq A] in
/-- No free range is longer than the slots. -/
theorem allocateRange_none (inv : HugeInv h) (hbig : 2 ^ 40 < size) :
    allocateRange (h.dram id) size = .ok none := by
  cases hf : Dram.firstFit (h.dram id).free size with
  | none => rw [allocateRange, hf]
  | some offset =>
    have hsub : ↑(Finset.Ico offset (offset + size)) ⊆ h.claimed id :=
      fun x hx => inv.freeClaimed id (Dram.firstFit_subset hf hx)
    have := end_le inv (Nat.zero_lt_of_lt hbig) hsub
    omega

omit [DecidableEq A] in
/-- If all slots are gone, a request for none fails on the bounds of the array. -/
theorem reserves_full (inv : HugeInv h) (id : T) (hbig : 2 ^ 40 < size)
    (hwrap : slotCount size = 0) (hfull : h.hint = slotsLen) : Reserves h id size := by
  refine .inr ⟨.outOfBounds, by decide, ?_⟩
  rw [allocateLoop, allocateRange_none inv hbig]
  dsimp only
  rw [claim, hwrap, claimSlot_hint inv (by decide), if_pos (by omega), if_neg (by omega), bind_error,
    bind_error]

/-- The hint is in front of a claim of no slots. -/
structure Stuck (h : Huge T A) : Prop where
  hint : h.hint < slotsLen
  empty : ∃ id, h.slots h.hint = some { id := id, slotCount := 0 }

omit [FinEnum T] [DecidableEq A] in
/-- **A walk that starts there never ends.** -/
theorem Stuck.claimSlot_diverges (hs : Stuck h) (id : T) {n : ℕ} (hn : h.hint + n ≤ slotsLen)
    (rounds : ℕ) : claimSlot id n h rounds h.hint = (.error .diverge, h) := by
  have hlen : slotsLen = 1024 := rfl
  have hhint := hs.hint
  obtain ⟨owner, hclaim⟩ := hs.empty
  induction rounds with
  | zero => rw [claimSlot]
  | succ rounds ih =>
    rw [claimSlot, usize_eq (by omega), if_pos hn, if_pos hhint, hclaim]
    dsimp only
    rw [Nat.add_zero, usize_eq (by omega)]
    exact ih

omit [DecidableEq A] in
/-- A request for no slots is recorded. -/
theorem claim_stuck (inv : HugeInv h) (id : T) (hwrap : slotCount size = 0)
    (hroom : h.hint < slotsLen) : ∃ h', claim id size h = (.ok (), h') ∧ h'.hint = h.hint ∧
      h'.slots = update h.slots h.hint (some { id := id, slotCount := 0 }) := by
  rw [claim, hwrap, claimSlot_hint inv (by decide), Nat.add_zero, if_pos hroom.le, if_pos hroom,
    bind_ok]
  exact ⟨_, rfl, rfl, rfl⟩

omit [DecidableEq A] in
/-- The rest of the loop changes no slots any more. -/
theorem Stuck.loop_keeps (hs : Stuck h) (id : T) (hwrap : slotCount size = 0) (n : ℕ) :
    (allocateLoop id size n h).2.slots = h.slots ∧ (allocateLoop id size n h).2.hint = h.hint := by
  cases n with
  | zero =>
    rw [allocateLoop]
    exact ⟨rfl, rfl⟩
  | succ n =>
    rw [allocateLoop]
    split
    · exact ⟨rfl, rfl⟩
    · rw [claim, hwrap, hs.claimSlot_diverges id hs.hint.le, bind_error, bind_error]
      exact ⟨rfl, rfl⟩
    · exact ⟨rfl, rfl⟩

/-- Neither does the rest of the call. -/
theorem allocate_keeps (validate : Bool) (id : T) (size : ℕ) (out : A) (reuse : Bool)
    (h : Huge T A) :
    (allocate validate id size out reuse h).2.slots
        = (allocateLoop id size 2 (h.refresh id)).2.slots ∧
      (allocate validate id size out reuse h).2.hint
        = (allocateLoop id size 2 (h.refresh id)).2.hint := by
  rw [allocate]
  generalize allocateLoop id size 2 (h.refresh id) = r
  obtain ⟨r, h₁⟩ := r
  cases r with
  | error e => exact ⟨rfl, rfl⟩
  | ok d =>
    rw [bind_ok]
    dsimp only
    split
    · exact ⟨rfl, rfl⟩
    · rename_i hins
      obtain ⟨hz, rfl⟩ := Huge.insertHazard_eq hins
      exact ⟨rfl, rfl⟩

theorem allocate_stuck (inv : HugeInv h) (validate : Bool) (id : T) (out : A) (reuse : Bool)
    (hbig : 2 ^ 40 < size) (hwrap : slotCount size = 0) (hroom : h.hint < slotsLen) :
    (allocate validate id size out reuse h).2.slots h.hint = some { id := id, slotCount := 0 } ∧
      (allocate validate id size out reuse h).2.hint = h.hint := by
  obtain ⟨hz, hrefresh, -⟩ := Huge.refresh_eq h id
  obtain ⟨hslots, hhint⟩ := allocate_keeps validate id size out reuse h
  obtain ⟨h₁, hclaim, hhint₁, hslots₁⟩ := claim_stuck (inv.hazards hz) id hwrap hroom
  have hself : h₁.slots h₁.hint = some { id := id, slotCount := 0 } := by
    rw [hslots₁, hhint₁]
    exact update_self _ _ _
  have hs : Stuck h₁ := ⟨hhint₁ ▸ hroom, id, hself⟩
  have hloop : allocateLoop id size 2 (h.refresh id) = allocateLoop id size 1 h₁ := by
    rw [hrefresh, allocateLoop, allocateRange_none (inv.hazards hz) hbig]
    dsimp only
    rw [hclaim, bind_ok]
  rw [hslots, hhint, hloop, (hs.loop_keeps id hwrap 1).1, (hs.loop_keeps id hwrap 1).2]
  have hhint₁ : h₁.hint = h.hint := hhint₁
  exact ⟨hhint₁ ▸ hself, hhint₁⟩

/-! ### All runs -/

/-- What is asked of an allocation of `size` bytes: it fails and has claimed nothing, or there
is a live range for it in claimed slots; no free set holds an unclaimed address; no claim is
of no slots; and the loops have ended. -/
structure Safe (h : Huge T A) (id : T) (size : ℕ) (r : Outcome T A ℕ) : Prop where
  outcome : ((∃ e, r.1 = .error e) ∧ r.2.slots = h.slots) ∨
    ∃ a ∈ r.2.list id, (r.2.desc a).state = .live ∧ size ≤ (r.2.desc a).size ∧
      ↑(r.2.desc a).range ⊆ r.2.claimed id ∧
      ∀ offset, r.1 = .ok offset → (r.2.desc a).offset = offset
  free : ∀ t, ↑(r.2.dram t).free ⊆ r.2.claimed t
  claims : ∀ slot claim, r.2.slots slot = some claim → 1 ≤ claim.slotCount
  terminates : r.1 ≠ .error .diverge

variable {rounded : ℕ}

omit [FinEnum T] [DecidableEq A] in
theorem Settled.safe {r : Outcome T A ℕ} (hr : Settled h id rounded r)
    (hsize : size ≤ rounded) : Safe h id size r := by
  refine ⟨?_, hr.inv.freeClaimed, hr.inv.slots.pos, hr.terminates⟩
  rcases hr.outcome with hfail | ⟨a, ha, hlive, rfl, hoffset⟩
  · exact .inl hfail
  · have hinuse : (r.2.desc a).InUse := by
      rw [Descriptor.InUse, hlive]
      decide
    exact .inr ⟨a, ha, hlive, hsize, hr.inv.claimed id a ha hinuse, hoffset⟩

/-- What a request is rounded to. -/
theorem nextMultipleOf_page (hsize : size < 2 ^ 64) (hpos : nextMultipleOf size sizePage ≠ 0) :
    size ≤ nextMultipleOf size sizePage ∧ size ≤ 2 ^ 64 - sizePage ∧
      (size ≤ 2 ^ 64 - sizeSlot ↔ nextMultipleOf size sizePage ≤ 2 ^ 64 - sizeSlot) := by
  simp only [nextMultipleOf, usize, Cxlalloc.nextMultipleOf, sizePage, sizeSlot] at hpos ⊢
  omega

theorem nextMultipleOf_page_pos (hlt : 0 < size) (hle : size ≤ 2 ^ 64 - sizePage) :
    nextMultipleOf size sizePage ≠ 0 ∧ nextMultipleOf size sizePage ≤ 2 ^ 64 := by
  simp only [nextMultipleOf, usize, Cxlalloc.nextMultipleOf, sizePage] at hle ⊢
  omega

theorem nextMultipleOf_slot (hle : rounded ≤ 2 ^ 64 - sizeSlot) :
    Cxlalloc.nextMultipleOf rounded sizeSlot < 2 ^ 64 := by
  simp only [Cxlalloc.nextMultipleOf, sizeSlot] at hle ⊢
  omega

/-- Above, nothing is left. -/
theorem slotCount_wraps (hlt : 2 ^ 64 - sizeSlot < rounded) (hle : rounded ≤ 2 ^ 64) :
    slotCount rounded = 0 := by
  simp only [slotCount, nextMultipleOf, usize, Cxlalloc.nextMultipleOf, sizeSlot] at hlt ⊢
  omega

variable {s : HugeSession T A}

/-- An allocation that fits is settled. -/
theorem allocateHuge_settled (inv : HugeInv s.heap) (validate : Bool) (id : T)
    {block : A} (hblock : ∀ t, block ∉ s.heap.list t) (hsize : size < 2 ^ 64) (hfits : Fits s size) :
    ∃ rounded, size ≤ rounded ∧
      Settled s.heap id rounded (allocateHuge validate id size block s.heap) := by
  rw [allocateHuge]
  by_cases hzero : nextMultipleOf size sizePage = 0
  · rw [if_pos hzero]
    refine ⟨size, le_rfl, inv, ?_, .inl ⟨⟨_, rfl⟩, rfl⟩, fun t a ha _ => ⟨ha, rfl⟩⟩
    intro h
    cases h
  · rw [if_neg hzero]
    obtain ⟨hle, hpage, hslot⟩ := nextMultipleOf_page hsize hzero
    have hfits : size ≤ 2 ^ 64 - sizeSlot ∨ s.heap.hint = slotsLen := by
      rcases hfits with h | h | h
      · exact .inl h
      · omega
      · exact .inr h
    have hpos := Nat.pos_of_ne_zero hzero
    refine ⟨_, hle, ?_⟩
    have hrounded : nextMultipleOf size sizePage < 2 ^ 64 := Nat.mod_lt _ (by decide)
    generalize nextMultipleOf size sizePage = rounded at hslot hpos hrounded ⊢
    obtain ⟨h₁, safe, hreuse, inv₁, htrim, hsafe⟩ := inv.reuse id
    have hslots : h₁.slots = s.heap.slots := by
      have hsame : (s.heap.reuse id).1.slots = s.heap.slots := reuse_slots
      rwa [hreuse] at hsame
    have hreserves : ∀ hz, Reserves { h₁ with hazards := hz } id rounded := by
      intro hz
      by_cases hwraps : rounded ≤ 2 ^ 64 - sizeSlot
      · exact reserves (inv₁.hazards hz) id hpos (nextMultipleOf_slot hwraps)
      · have hfull : s.heap.hint = slotsLen := hfits.resolve_left fun h => hwraps (hslot.mp h)
        have hslot : sizeSlot = 2 ^ 30 := rfl
        exact reserves_full (inv₁.hazards hz) id (by omega) (slotCount_wraps (by omega) hrounded.le)
          (htrim.hint.trans hfull)
    rw [reuse_eq inv, hreuse]
    refine .of_trimmed htrim hslots ?_
    cases safe with
    | none => exact allocate_settled inv₁ hpos hreserves (HugeInv.vacant_new (htrim.list ▸ hblock))
    | some a =>
      obtain ⟨pre, post, hl, hs, hpre⟩ := hsafe a rfl
      exact allocate_settled inv₁ hpos hreserves (inv₁.vacant_reused hl hs hpre)

/-- One that does not leaves a claim of no slots at the hint. -/
theorem allocateHuge_stuck (inv : HugeInv s.heap) (validate : Bool) (id : T)
    (block : A) (hsize : size < 2 ^ 64) (hfits : ¬Fits s size) :
    (allocateHuge validate id size block s.heap).2.slots s.heap.hint
        = some { id := id, slotCount := 0 } ∧
      (allocateHuge validate id size block s.heap).2.hint = s.heap.hint ∧
      s.heap.hint < slotsLen := by
  have hslot : sizeSlot = 2 ^ 30 := rfl
  have hpage : sizePage = 4096 := rfl
  simp only [Fits, not_or, not_le, not_lt] at hfits
  obtain ⟨hlarge, htop, hhint⟩ := hfits
  have hroom : s.heap.hint < slotsLen := lt_of_le_of_ne inv.slots.hint_le hhint
  obtain ⟨hzero, hrounded⟩ := nextMultipleOf_page_pos (by omega) htop
  obtain ⟨hle, -, -⟩ := nextMultipleOf_page hsize hzero
  rw [allocateHuge, if_neg hzero]
  generalize nextMultipleOf size sizePage = rounded at hrounded hle ⊢
  have hwrap : slotCount rounded = 0 := slotCount_wraps (by omega) hrounded
  obtain ⟨h₁, safe, hreuse, inv₁, htrim, -⟩ := inv.reuse id
  rw [reuse_eq inv, hreuse, ← htrim.hint] at *
  cases safe with
  | none =>
    obtain ⟨hstuck, hsame⟩ :=
      allocate_stuck inv₁ validate id block false (by omega) hwrap hroom
    exact ⟨hstuck, hsame, hroom⟩
  | some a =>
    obtain ⟨hstuck, hsame⟩ := allocate_stuck inv₁ validate id a true (by omega) hwrap hroom
    exact ⟨hstuck, hsame, hroom⟩

theorem sound_step {s s' : HugeSession T A} (hs : s.Sound)
    (hstep : Step validate Fits s s') : s'.Sound := by
  cases hstep with
  | allocate t size block hsize hfits hblock =>
    obtain ⟨rounded, -, hsettled⟩ := allocateHuge_settled hs.inv validate t hblock hsize hfits
    generalize allocateHuge validate t size block s.heap = r at hsettled
    obtain ⟨r, h⟩ := r
    have hold : ∀ offset ∈ s.live, ∃ t, ∃ a ∈ h.list t,
        (h.desc a).state = .live ∧ (h.desc a).offset = offset := by
      intro offset hoffset
      obtain ⟨t, a, ha, hlive, heq⟩ := hs.live offset hoffset
      obtain ⟨hmem, hdesc⟩ := hsettled.old t a ha hlive
      exact ⟨t, a, hmem, hdesc ▸ hlive, hdesc ▸ heq⟩
    cases r with
    | error e => exact ⟨hsettled.inv, hold⟩
    | ok offset =>
      refine ⟨hsettled.inv, fun o ho => ?_⟩
      rcases Finset.mem_insert.mp ho with rfl | ho
      · rcases hsettled.outcome with ⟨⟨e, he⟩, -⟩ | ⟨a, ha, hlive, -, hoffset⟩
        · cases he
        · exact ⟨t, a, ha, hlive, hoffset o rfl⟩
      · exact hold o ho
  | free t offset hlegal hcall => exact hs.step ⟨_, hlegal, hcall⟩
  | tryMap t offset hlegal hcall => exact hs.step ⟨_, hlegal, hcall⟩

theorem sound_run {blank : Descriptor}
    (hrun : ReflTransGen (Step validate Fits) (HugeSession.zeroed blank) s) : s.Sound := by
  induction hrun with
  | refl => exact ⟨.zeroed, by simp [HugeSession.zeroed]⟩
  | tail _ hstep ih => exact sound_step ih hstep

/-- **A huge request is safe exactly if it fits**, in every state that requests that fit have
led to, failed ones included. -/
theorem safe_iff_fits {validate : Bool} {blank : Descriptor} {s : HugeSession T A} {block : A}
    (hrun : ReflTransGen (Step validate Fits) (HugeSession.zeroed blank) s) (t : T)
    (hblock : ∀ u, block ∉ s.heap.list u) (hsize : size < 2 ^ 64) :
    Safe s.heap t size (allocateHuge validate t size block s.heap) ↔ Fits s size := by
  have inv := (sound_run hrun).inv
  constructor
  · intro hsafe
    by_contra hfits
    obtain ⟨hstuck, -⟩ := allocateHuge_stuck inv validate t block hsize hfits
    exact Nat.not_succ_le_zero 0 (hsafe.claims _ _ hstuck)
  · intro hfits
    obtain ⟨rounded, hle, hsettled⟩ := allocateHuge_settled inv validate t hblock hsize hfits
    exact hsettled.safe hle

/-- A page on the empty heap. -/
theorem safe_iff_fits_page :
    Safe (Huge.zeroed ⟨0, 0, 0, .safe⟩ : Huge (Fin 2) ℕ) 0 (2 ^ 19 + 1)
      (allocateHuge false 0 (2 ^ 19 + 1) 0 (Huge.zeroed ⟨0, 0, 0, .safe⟩)) :=
  (safe_iff_fits (s := HugeSession.zeroed ⟨0, 0, 0, .safe⟩) .refl 0
    (fun _ => List.not_mem_nil) (by decide)).mpr (.inl (by decide))

/-- The first request of all is for a page more than `2 ^ 64 - 2 ^ 30` bytes: a claim of no
slots is left at the hint, and whoever claims a slot afterwards walks forever. -/
theorem unsafe_near_top : ∃ (s : HugeSession (Fin 2) ℕ) (r : Outcome (Fin 2) ℕ ℕ),
    s = HugeSession.zeroed ⟨0, 0, 0, .safe⟩ ∧
      r = allocateHuge false 0 (2 ^ 64 - 2 ^ 30 + 4096) 0 s.heap ∧
      ¬Safe s.heap 0 (2 ^ 64 - 2 ^ 30 + 4096) r ∧
      r.2.slots 0 = some { id := 0, slotCount := 0 } ∧
      ∀ t rounds, claimSlot t 1 r.2 rounds r.2.hint = (.error .diverge, r.2) := by
  obtain ⟨s, hs⟩ : ∃ s : HugeSession (Fin 2) ℕ, s = HugeSession.zeroed ⟨0, 0, 0, .safe⟩ := ⟨_, rfl⟩
  have inv : HugeInv s.heap := hs ▸ .zeroed
  have hzero : s.heap.hint = 0 := hs ▸ rfl
  have hfits : ¬Fits s (2 ^ 64 - 2 ^ 30 + 4096) := by
    rw [Fits, hzero]
    decide
  have hstuck := allocateHuge_stuck inv false 0 0 (by decide) hfits
  obtain ⟨r, hr⟩ : ∃ r, r = allocateHuge false 0 (2 ^ 64 - 2 ^ 30 + 4096) 0 s.heap := ⟨_, rfl⟩
  rw [← hr, hzero] at hstuck
  obtain ⟨hstuck, hhint, hroom⟩ := hstuck
  refine ⟨s, r, hs, hr, fun hsafe => ?_, hstuck, fun t rounds => ?_⟩
  · exact Nat.not_succ_le_zero 0 (hsafe.claims _ _ hstuck)
  · have hs : Stuck r.2 := ⟨lt_of_eq_of_lt hhint hroom, 0, (congrArg r.2.slots hhint).trans hstuck⟩
    exact hs.claimSlot_diverges t (le_of_eq_of_le (congrArg (· + 1) hhint) (by decide)) rounds

end Cxlalloc.Wrapping
