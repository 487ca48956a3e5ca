/-
What `refresh` unmaps has not been handed out again.

`refresh` drops the hazard on a freed range first and unmaps the range afterwards.  In
between nothing protects the range: the owner may see no hazard, take the range back, hand
it out again, and have it unmapped under its new user.

If no descriptor is taken back in that window (`NotUnmapping`), the range that is unmapped
is still that of a `Free` descriptor.
-/
import Cxlalloc.Proofs.HugeRecycle
import Cxlalloc.Proofs.HugeFocus

namespace Cxlalloc

open Lib
open Lib.Prog (lift)
open Lib.Protocol
open Function
open Relation

namespace HugeMem

section Steps

variable {T A : Type} [FinEnum T] [DecidableEq A] {m m' : HugeMem T A} {t u v : T} {a b : A}
  {validate : Bool} {J : HugeMem T A → Prop} {x : ℕ}

/-! ### `allocate` -/

/-- What a thread has reserved, and has no descriptor for yet. -/
abbrev Reserved (t : T) (size : ℕ) (d : Descriptor) (m : HugeMem T A) : Prop :=
  HugeInv.Reserved m.settled t size d m.settled

variable {d : Descriptor} {size : ℕ}

omit [DecidableEq A] in
theorem Reserved.congr (res : Reserved t size d m) (hm' : m'.Sound)
    (hclaimed : m.claimed t ⊆ m'.claimed t) (hdram : m'.dram t = m.dram t)
    (hlist : m'.list t = m.list t)
    (hdesc : ∀ b ∈ m.list t, m'.InUse b → m.InUse b ∧ (m'.desc b).range = (m.desc b).range) :
    Reserved t size d m' where
  inv := hm'.heap
  list := rfl
  desc := rfl
  hazards := rfl
  live := res.live
  size := res.size
  claimed _ hx := hclaimed (res.claimed hx)
  free := by
    show Disjoint (m'.dram t).free d.range
    rw [hdram]
    exact res.free
  ranges b hb ub := by
    have hb : b ∈ m'.list t := hb
    rw [hlist] at hb
    obtain ⟨ub, hrange⟩ := hdesc b hb (settled_inUse.mp ub)
    rw [settled_range, hrange, ← settled_range]
    exact res.ranges b hb (settled_inUse.mpr ub)

theorem stable_reserved :
    (recycling validate).Stable t (Reserved t size d : HugeMem T A → Prop) := by
  refine stable fun u m m' hu hm hm' hacts res => ?_
  have ht := hacts.other t hu.symm
  refine res.congr hm' (hacts.claimed t) ht.dram ht.list fun b hb ub => ?_
  exact ⟨(hacts.own_inUse hm hu (.inl hb)).mp ub, (hacts.own_range hm hu (.inl hb)).2⟩

variable {reuse : Bool}

/-- Reserving a range. -/
theorem does_allocateRange (hsize : 0 < size) :
    (recycling validate).Does t (Chosen t a reuse) (.allocateRange size) fun d m =>
      Chosen t a reuse m ∧ Reserved t size d m := by
  refine does (fun _ => trivial) fun m d m' hm hj _ h => ?_
  rw [handle] at h
  split at h
  · rename_i d' h' hal
    obtain ⟨rfl, rfl⟩ := ok_inj h
    have hal' := Huge.allocateRange_desc m.settled.desc hal
    have res := HugeInv.allocateRange (h := m.settled) hm.heap hsize hal'
    obtain ⟨hdram, hclaimed⟩ := hm.heap.allocateRange_other hsize hal'
    have hdesc : h'.desc = m.desc := by
      have hsame := hal.symm.trans (Huge.allocateRange_desc m.desc hal)
      have heq := congrArg Huge.desc (ok_inj hsame).2
      exact heq
    obtain ⟨slots, hint, list, hazards, desc, dram⟩ := h'
    obtain rfl : desc = m.desc := hdesc
    obtain rfl : list = m.list := res.list
    obtain rfl : hazards = m.hazards := res.hazards
    refine ⟨{ hm with heap := res.inv }, { Acts.refl t m with
      other := fun v hv => ⟨rfl, hdram v hv, rfl, rfl, rfl, rfl, rfl⟩
      change := fun _ => .same rfl rfl
      claimed := hclaimed }, ⟨hj.rested, ?_, hj.safe⟩,
      { res with list := rfl, desc := rfl, hazards := rfl }⟩
    cases reuse with
    | true => exact hj.spot
    | false => exact hj.spot
  · cases h

/-- `out` is marked `Live`, with the range it had before. -/
structure Marked (t : T) (out : A) (reuse : Bool) (m : HugeMem T A) : Prop where
  rested : ∀ b ∈ m.list t, b ≠ out → m.stale b = false
  spot : Spot t out m reuse
  state : (m.desc out).state = .live
  stale : m.stale out = true

theorem stable_marked : (recycling validate).Stable t (Marked t a reuse : HugeMem T A → Prop) := by
  refine stable fun u m m' hu hm _ hacts h => ?_
  have hlive : ¬ m.Live a := fun hl => by
    have := hl.2
    rw [h.stale] at this
    cases this
  obtain ⟨hd, hs⟩ := hacts.own_eq hm hu h.spot.mine hlive
  refine ⟨fun b hb hne => ?_, h.spot.acts hm hu hacts, hd ▸ h.state, hs ▸ h.stale⟩
  rw [(hacts.other t hu.symm).list] at hb
  rw [(hacts.own hm hu (.inl hb)).1]
  exact h.rested b hb hne

variable {stale : Bool}

omit [FinEnum T] in
/-- Changing a descriptor that is on no list or not in use. -/
theorem Sound.rewrite (hm : m.Sound)
    (hunused : m.Listed a → ¬ m.InUse a) (hstale : stale = true → d.state = .live)
    (hheap : HugeInv ({ m with
      desc := update m.desc a d
      stale := update m.stale a stale } : HugeMem T A).settled) :
    ({ m with
        desc := update m.desc a d
        stale := update m.stale a stale } : HugeMem T A).Sound := by
  have hne : ∀ {b}, m.Listed b → m.InUse b → b ≠ a := by
    rintro b hl ub rfl
    exact hunused hl ub
  have hdesc : ∀ {b}, b ≠ a → update m.desc a d b = m.desc b := fun hb => update_of_ne hb _ _
  have hst : ∀ {b}, b ≠ a → update m.stale a stale b = m.stale b := fun hb => update_of_ne hb _ _
  refine { hm with
    heap := hheap, stale := ?_, hazard := ?_, handed := ?_, freeing := ?_, unmapping := ?_ }
  · intro b hb
    by_cases hba : b = a
    · subst hba
      simp only [update_self] at hb ⊢
      exact hstale hb
    · simp only [hdesc hba, hst hba] at hb ⊢
      exact hm.stale b hb
  · intro v y hy
    obtain ⟨b, hb, ub, hoff⟩ := hm.hazard v y hy
    have hba := hne hb ub
    refine ⟨b, hb, ub.congr (hdesc hba) (hst hba), ?_⟩
    simp only [hdesc hba]
    exact hoff
  · intro b hb
    obtain ⟨hl, hlive⟩ := hm.handed b hb
    have hba := hne hl hlive.inUse
    exact ⟨hl, hlive.congr (hdesc hba) (hst hba)⟩
  · intro v b hv
    obtain ⟨hl, hlive, hh⟩ := hm.freeing v b hv
    have hba := hne hl hlive.inUse
    exact ⟨hl, hlive.congr (hdesc hba) (hst hba), hh⟩
  · intro v b hv
    obtain ⟨hl, hfree⟩ := hm.unmapping v b hv
    refine ⟨hl, ?_⟩
    simp only [hdesc (hne hl (hm.inUse_of_free hfree))]
    exact hfree

omit [FinEnum T] in
theorem acts_rewrite (hchange : Change t m { m with
      desc := update m.desc a d
      stale := update m.stale a stale } a) :
    Acts t m { m with
      desc := update m.desc a d
      stale := update m.stale a stale } :=
  { Acts.refl t m with
    other := fun v hv => ⟨rfl, rfl, rfl, rfl, rfl, rfl, rfl⟩
    change := fun b => by
      by_cases hb : b = a
      · subst hb
        exact hchange
      · exact .same (update_of_ne hb _ _) (update_of_ne hb _ _) }

omit [FinEnum T] in
theorem Spot.rewrite (hm : m.Sound) (h : Spot t a m reuse) :
    Spot t a { m with desc := update m.desc a d, stale := update m.stale a stale } reuse := by
  cases reuse with
  | false => exact h
  | true =>
    obtain ⟨pre, post, hl, hpre⟩ := h
    refine ⟨pre, post, hl, fun b hb => ?_⟩
    have hnodup : (m.list t).Nodup := hm.heap.nodup t
    rw [hl] at hnodup
    have hba : b ≠ a := by
      rintro rfl
      exact (List.nodup_append.mp hnodup).2.2 b hb b List.mem_cons_self rfl
    exact (hpre b hb).congr (update_of_ne hba _ _) (update_of_ne hba _ _)

omit [FinEnum T] [DecidableEq A] in
/-- A thread's own descriptor that is on a list is on its list. -/
theorem Sound.mem_of_mine (hm : m.Sound) (ha : Mine t a m) (hl : m.Listed a) : a ∈ m.list t :=
  ha.resolve_right fun hb => hm.block t a hb hl

theorem does_storeLive :
    (recycling validate).Does t (fun m => Chosen t a reuse m ∧ Reserved t size d m)
      (.storeState a .live) fun _ m => Marked t a reuse m ∧ Reserved t size d m := by
  refine does (fun _ => trivial) fun m _ m' hm hj _ h => ?_
  obtain ⟨hc, res⟩ := hj
  obtain ⟨-, rfl⟩ := ok_inj h
  have hunused : m.Listed a → ¬ m.InUse a := fun hl ua => ua.1 (hc.safe hl)
  have hother : ∀ {b}, b ≠ a → update m.stale a true b = m.stale b := fun hb => update_of_ne hb _ _
  have hheap : HugeInv ({ m with
      desc := update m.desc a { m.desc a with state := .live }
      stale := update m.stale a true } : HugeMem T A).settled := by
    refine hm.heap.congr_desc fun v b hb => ?_
    by_cases hba : b = a
    · subst hba
      have hstale := hc.rested b (hm.mem_of_mine hc.spot.mine ⟨v, hb⟩)
      rw [settled_eq hstale]
      simp only [update_self, if_true]
      rw [← hc.safe ⟨v, hb⟩]
    · simp only [hother hba, update_of_ne hba]
      rfl
  have hm' := hm.rewrite hunused (fun _ => rfl) hheap
  refine ⟨hm', acts_rewrite (.marked hc.spot.mine hunused (update_self _ _ _) (update_self _ _ _)),
    ⟨fun b hb hba => ?_, hc.spot.rewrite hm, by simp, update_self _ _ _⟩,
    res.congr hm' subset_rfl rfl rfl fun b hb ub => ?_⟩
  · simp only [hother hba]
    exact hc.rested b hb
  · have hba : b ≠ a := by
      rintro rfl
      have := ub.2
      simp at this
    refine ⟨ub.congr (update_of_ne hba _ _).symm (hother hba).symm, ?_⟩
    simp only [update_of_ne hba]

/-- `out` has its range, and is on the list or about to be. -/
structure Written (t : T) (out : A) (reuse : Bool) (size : ℕ) (d : Descriptor) (m : HugeMem T A) :
    Prop where
  rested : Rested t m
  spot : Spot t out m reuse
  desc : m.desc out = d
  live : m.Live out
  handed : m.handed out = false
  freeing : ∀ v, m.freeing v ≠ some out
  reserved : reuse = false → Reserved t size d m

theorem stable_written :
    (recycling validate).Stable t (Written t a reuse size d : HugeMem T A → Prop) := by
  refine stable fun u m m' hu hm hm' hacts h => ?_
  obtain ⟨hd, hh, hf⟩ := hacts.reserved hm hu h.spot.mine h.handed h.freeing
  refine ⟨h.rested.acts hm hu hacts, h.spot.acts hm hu hacts, hd.trans h.desc,
    h.live.congr hd (hacts.own hm hu h.spot.mine).1, hh, hf, fun hr => ?_⟩
  have ht := hacts.other t hu.symm
  refine (h.reserved hr).congr hm' (hacts.claimed t) ht.dram ht.list fun b hb ub => ?_
  exact ⟨(hacts.own_inUse hm hu (.inl hb)).mp ub, (hacts.own_range hm hu (.inl hb)).2⟩

/-- The heap once the descriptor of a reserved range is written. -/
theorem Reserved.write (res : Reserved t size d m)
    (hm : m.Sound) (hsize : 0 < size) (hmarked : Marked t a reuse m) :
    HugeInv ({ m with
      desc := update m.desc a d
      stale := update m.stale a false } : HugeMem T A).settled := by
  rw [settled]
  simp only [settled_write (m := m) (d := d) (update_self a false m.stale)
    fun b hb => update_of_ne hb _ _]
  cases reuse with
  | false =>
    refine hm.heap.congr_desc fun v b hb => update_of_ne ?_ _ _
    rintro rfl
    exact hm.block t b hmarked.spot ⟨v, hb⟩
  | true =>
    obtain ⟨pre, post, hl, hpre⟩ := hmarked.spot
    have hsafe : (m.settled.desc a).state = .safe := by simp [settled, hmarked.stale]
    have vacant := hm.heap.vacant_reused hl hsafe fun b hb => settled_inUse.mpr (hpre b hb)
    have h := res.place hsize vacant.sub vacant.new vacant.front
      fun v hv hva => hv (vacant.owner v hva)
    rw [← hl] at h
    have hlist : update m.settled.list t (m.list t) = m.list := update_eq_self t m.list
    rw [hlist] at h
    exact h

theorem does_storeRange (hsize : 0 < size) :
    (recycling validate).Does t (fun m => Marked t a reuse m ∧ Reserved t size d m)
      (.storeRange a d) fun _ m => Written t a reuse size d m := by
  refine does (fun _ => trivial) fun m _ m' hm hj _ h => ?_
  obtain ⟨hmarked, res⟩ := hj
  obtain ⟨-, rfl⟩ := ok_inj h
  have hd : ({ d with state := (m.desc a).state } : Descriptor) = d := by
    rw [hmarked.state, ← res.live]
  rw [hd]
  have hunused : ¬ m.InUse a := fun ua => by
    have := ua.2
    rw [hmarked.stale] at this
    cases this
  have hlive : ({ m with
      desc := update m.desc a d
      stale := update m.stale a false } : HugeMem T A).Live a :=
    ⟨by simp [res.live], update_self _ _ _⟩
  have hm' := hm.rewrite (fun _ => hunused) (fun h => by cases h) (res.write hm hsize hmarked)
  refine ⟨hm', acts_rewrite (.filled hmarked.spot.mine (fun _ => hunused) hlive),
    ⟨fun b hb => ?_, hmarked.spot.rewrite hm, update_self _ _ _, hlive, ?_, fun v hv => ?_, fun hr => ?_⟩⟩
  · by_cases hba : b = a
    · exact hba ▸ update_self _ _ _
    · simp only [update_of_ne hba]
      exact hmarked.rested b hb hba
  · exact Bool.eq_false_iff.mpr fun hh => hunused (hm.handed a hh).2.inUse
  · exact hunused (hm.freeing v a hv).2.1.inUse
  · subst hr
    refine res.congr hm' subset_rfl rfl rfl fun b hb ub => ?_
    have hba : b ≠ a := by
      rintro rfl
      exact hm.block t b hmarked.spot ⟨t, hb⟩
    refine ⟨ub.congr (update_of_ne hba _ _).symm (update_of_ne hba _ _).symm, ?_⟩
    simp only [update_of_ne hba]

/-- `out` is on the list, and nobody was given its range. -/
structure Owned (t : T) (out : A) (d : Descriptor) (m : HugeMem T A) : Prop where
  rested : Rested t m
  mem : out ∈ m.list t
  desc : m.desc out = d
  live : m.Live out
  handed : m.handed out = false
  freeing : ∀ v, m.freeing v ≠ some out

theorem stable_owned : (recycling validate).Stable t (Owned t a d : HugeMem T A → Prop) := by
  refine stable fun u m m' hu hm _ hacts h => ?_
  obtain ⟨hd, hh, hf⟩ := hacts.reserved hm hu (.inl h.mem) h.handed h.freeing
  refine ⟨h.rested.acts hm hu hacts, ?_, hd.trans h.desc,
    h.live.congr hd (hacts.own hm hu (.inl h.mem)).1, hh, hf⟩
  rw [(hacts.other t hu.symm).list]
  exact h.mem

theorem Sound.link (hm : m.Sound) (hsize : 0 < size) (h : Written t a false size d m) :
    ({ m with
        list := update m.list t (a :: m.list t)
        block := update m.block t none } : HugeMem T A).Sound := by
  have hnew := hm.block t a h.spot
  have hlisted : ∀ {b}, m.Listed b → ∃ v, b ∈ update m.list t (a :: m.list t) v := by
    rintro b ⟨v, hb⟩
    refine ⟨v, ?_⟩
    by_cases hv : v = t
    · subst hv
      rw [update_self]
      exact List.mem_cons_of_mem a hb
    · rwa [update_of_ne hv]
  have hblock : ∀ {v b}, update m.block t none v = some b → v ≠ t ∧ m.block v = some b := by
    intro v b hv
    rcases update_eq_some_iff.mp hv with ⟨-, ⟨⟩⟩ | hv
    exact hv
  refine { hm with
    heap := ?_, hazard := ?_, handed := ?_, freeing := ?_, unmapping := ?_, block := ?_, blockOnce := ?_ }
  · have vacant : HugeInv.Vacant m.settled t a false [] (m.list t) :=
      HugeInv.vacant_new fun v hv => hnew ⟨v, hv⟩
    have hplace := (h.reserved rfl).place hsize vacant.sub vacant.new vacant.front
      fun v hv hva => hv (vacant.owner v hva)
    have hd : m.settled.desc a = d := (settled_eq h.live.2).trans h.desc
    rw [← hd, update_eq_self] at hplace
    exact hplace
  · intro v y hy
    obtain ⟨b, hb, ub, hoff⟩ := hm.hazard v y hy
    exact ⟨b, hlisted hb, ub, hoff⟩
  · intro b hb
    obtain ⟨hl, hlive⟩ := hm.handed b hb
    exact ⟨hlisted hl, hlive⟩
  · intro v b hv
    obtain ⟨hl, hlive⟩ := hm.freeing v b hv
    exact ⟨hlisted hl, hlive⟩
  · intro v b hv
    obtain ⟨hl, hfree⟩ := hm.unmapping v b hv
    exact ⟨hlisted hl, hfree⟩
  · intro v b hv hl
    obtain ⟨hvt, hvb⟩ := hblock hv
    obtain ⟨w, hw⟩ := hl
    have hw : b ∈ update m.list t (a :: m.list t) w := hw
    by_cases hwt : w = t
    · subst hwt
      rw [update_self] at hw
      rcases List.mem_cons.mp hw with rfl | hw
      · exact hvt (hm.blockOnce v w b hvb h.spot)
      · exact hm.block v b hvb ⟨w, hw⟩
    · rw [update_of_ne hwt] at hw
      exact hm.block v b hvb ⟨w, hw⟩
  · exact fun v w b hv hw => hm.blockOnce v w b (hblock hv).2 (hblock hw).2

theorem does_link (hsize : 0 < size) :
    (recycling validate).Does t (Written t a false size d) (.link a) fun _ m => Owned t a d m := by
  refine does (fun _ => trivial) fun m _ m' hm hj _ h => ?_
  obtain ⟨-, rfl⟩ := ok_inj h
  refine ⟨hm.link hsize hj, { Acts.refl t m with
    other := fun v hv => ⟨update_of_ne hv _ _, rfl, rfl, update_of_ne hv _ _, rfl, rfl, rfl⟩
    list := ?_
    change := fun _ => .same rfl rfl }, fun b hb => ?_, by simp, hj.desc, hj.live, hj.handed, hj.freeing⟩
  · simp only [update_self]
    exact List.suffix_cons a (m.list t)
  · have hb : b ∈ update m.list t (a :: m.list t) t := hb
    rw [update_self] at hb
    rcases List.mem_cons.mp hb with rfl | hb
    · exact hj.live.2
    · exact hj.rested b hb

theorem does_returned :
    (recycling validate).Does t (Owned t a d) (.returned a) fun _ m => Rested t m := by
  refine does (fun _ => trivial) fun m _ m' hm hj _ h => ?_
  obtain ⟨-, rfl⟩ := ok_inj h
  have hhanded : ∀ {b}, b ≠ a → update m.handed a true b = m.handed b := fun hb => update_of_ne hb _ _
  have hblock : ∀ {v b}, update m.block t none v = some b → m.block v = some b := by
    intro v b hv
    rcases update_eq_some_iff.mp hv with ⟨-, ⟨⟩⟩ | hv
    exact hv.2
  refine ⟨{ hm with handed := ?_, freeing := ?_, faulting := ?_, block := ?_, blockOnce := ?_ },
    { Acts.refl t m with
      other := fun v hv => ⟨rfl, rfl, rfl, update_of_ne hv _ _, rfl, rfl, rfl⟩
      change := fun _ => .same rfl rfl
      handed := ?_ }, hj.rested⟩
  · intro b hb
    by_cases hba : b = a
    · subst hba
      exact ⟨⟨t, hj.mem⟩, hj.live⟩
    · simp only [hhanded hba] at hb
      exact hm.handed b hb
  · intro v b hv
    have hba : b ≠ a := by
      rintro rfl
      exact hj.freeing v hv
    simp only [hhanded hba]
    exact hm.freeing v b hv
  · intro v b hv
    by_cases hba : b = a
    · subst hba
      exact update_self _ _ _
    · simp only [hhanded hba]
      exact hm.faulting v b hv
  · exact fun v b hv => hm.block v b (hblock hv)
  · exact fun v w b hv hw => hm.blockOnce v w b (hblock hv) (hblock hw)
  · intro b
    by_cases hba : b = a
    · subst hba
      exact .inr (.inl (.inl hj.mem))
    · exact .inl (hhanded hba)

/-- What is left of `allocate` once the descriptor is on the list. -/
theorem keeps_handOut (hm : Owned t a d m) :
    (recycling validate).Keeps t (do
        let (offset, _) ← lift (.loadRange a)
        lift (.insert offset)
        let (offset, size) ← lift (.loadRange a)
        lift (.map offset size)
        lift (.returned a)) (fun _ => Rested t) m := by
  refine keeps_access does_loadRange stable_owned (fun r m₁ _ h₁ => ?_) hm
  obtain ⟨h₁, rfl⟩ := h₁
  rw [h₁.desc]
  refine keeps_access (does_insert (a := a) (K := Owned t a d) (fun m _ h => ?_) fun m hz fa h => ?_)
    stable_owned (fun _ m₂ _ h₂ => ?_) h₁
  · exact ⟨by rw [h.desc], h.live.inUse, .inl h.mem⟩
  · exact ⟨h.rested, h.mem, h.desc, h.live, h.handed, h.freeing⟩
  · refine keeps_access does_loadRange stable_owned (fun r m₃ _ h₃ => ?_) h₂
    refine keeps_access does_map stable_owned (fun _ m₄ _ h₄ => ?_) h₃.1
    exact keeps_lift does_returned stable_owned (fun _ => stable_rested) h₄

theorem keeps_allocateAt (hsize : 0 < size) (hm : Chosen t a reuse m) :
    (recycling validate).Keeps t (HugeAct.allocateAt size a reuse) (fun _ => Rested t) m := by
  refine keeps_bind ((keeps_refresh frame_chosen stable_chosen hm).mono fun _ m₁ h₁ => ?_)
  refine keeps_access (does_allocateRange hsize) stable_chosen (fun d m₂ _ h₂ => ?_) h₁
  refine keeps_access does_storeLive (stable_chosen.and stable_reserved) (fun _ m₃ _ h₃ => ?_) h₂
  refine keeps_access (does_storeRange hsize) (stable_marked.and stable_reserved)
    (fun _ m₄ _ h₄ => ?_) h₃
  cases reuse with
  | true =>
    obtain ⟨pre, post, hl, -⟩ := h₄.spot
    exact keeps_handOut ⟨h₄.rested, by simp [hl], h₄.desc, h₄.live, h₄.handed, h₄.freeing⟩
  | false =>
    exact keeps_access (does_link hsize) stable_written (fun _ m₅ _ h₅ => keeps_handOut h₅) h₄

theorem keeps_allocate {block : A} (hm : Rested t m ∧ m.block t = some block) :
    (recycling validate).Keeps t (HugeAct.allocate t size block) (fun _ => Rested t) m := by
  rw [HugeAct.allocate]
  refine keeps_ite (fun _ => keeps_stop) fun hsize => ?_
  have hpos : 0 < nextMultipleOf size sizePage := by omega
  refine keeps_bind ((keeps_reuse hm).mono fun r m₁ h₁ => ?_)
  cases r with
  | none => exact keeps_allocateAt hpos h₁
  | some a => exact keeps_allocateAt hpos h₁

/-! ### Calls -/

omit [DecidableEq A] in
theorem Sound.callAllocate (hm : m.Sound) {block : A} (hfresh : ∀ u, block ∉ m.list u)
    (hother : ∀ u, u ≠ t → m.block u ≠ some block) :
    ({ m with block := update m.block t (some block) } : HugeMem T A).Sound := by
  refine { hm with block := ?_, blockOnce := ?_ }
  · intro v b hv
    rcases update_eq_some_iff.mp hv with ⟨-, ⟨⟩⟩ | ⟨-, hv⟩
    · exact fun ⟨w, hw⟩ => hfresh w hw
    · exact hm.block v b hv
  · intro v w b hv hw
    rcases update_eq_some_iff.mp hv with ⟨rfl, ⟨⟩⟩ | ⟨hvt, hvb⟩
    · rcases update_eq_some_iff.mp hw with ⟨rfl, -⟩ | ⟨hwt, hwb⟩
      · rfl
      · exact absurd hwb (hother w hwt)
    · rcases update_eq_some_iff.mp hw with ⟨rfl, ⟨⟩⟩ | ⟨-, hwb⟩
      · exact absurd hvb (hother v hvt)
      · exact hm.blockOnce v w b hvb hwb

theorem Sound.callFree (hm : m.Sound) (ha : m.handed a = true)
    (hfaulting : ∀ u, m.faulting u ≠ some a) :
    ({ m with
        handed := update m.handed a false
        freeing := update m.freeing t (some a) } : HugeMem T A).Sound := by
  obtain ⟨hl, hlive⟩ := hm.handed a ha
  have hne : ∀ {v b}, m.freeing v = some b → b ≠ a := by
    rintro v b hv rfl
    rw [(hm.freeing v b hv).2.2] at ha
    cases ha
  refine { hm with handed := ?_, freeing := ?_, freeingOnce := ?_, faulting := ?_ }
  · intro b hb
    by_cases hba : b = a
    · subst hba
      exact ⟨hl, hlive⟩
    · simp only [update_of_ne hba] at hb
      exact hm.handed b hb
  · intro v b hv
    rcases update_eq_some_iff.mp hv with ⟨-, ⟨⟩⟩ | ⟨-, hv⟩
    · exact ⟨hl, hlive, update_self _ _ _⟩
    · simp only [update_of_ne (hne hv)]
      exact hm.freeing v b hv
  · intro v w b hv hw
    rcases update_eq_some_iff.mp hv with ⟨rfl, ⟨⟩⟩ | ⟨-, hv⟩
    · rcases update_eq_some_iff.mp hw with ⟨rfl, -⟩ | ⟨-, hw⟩
      · rfl
      · exact absurd rfl (hne hw)
    · rcases update_eq_some_iff.mp hw with ⟨-, ⟨⟩⟩ | ⟨-, hw⟩
      · exact absurd rfl (hne hv)
      · exact hm.freeingOnce v w b hv hw
  · intro v b hv
    have hba : b ≠ a := by
      rintro rfl
      exact hfaulting v hv
    simp only [update_of_ne hba]
    exact hm.faulting v b hv

omit [DecidableEq A] in
theorem Sound.callTryMap (hm : m.Sound) (ha : m.handed a = true) :
    ({ m with faulting := update m.faulting t (some a) } : HugeMem T A).Sound := by
  refine { hm with faulting := fun v b hv => ?_ }
  rcases update_eq_some_iff.mp hv with ⟨-, ⟨⟩⟩ | ⟨-, hv⟩
  · exact ha
  · exact hm.faulting v b hv

theorem calls_recycling : (recycling (T := T) (A := A) validate).Calls := by
  intro t c m hm hrest hlegal
  have hm : m.Sound := hm
  cases c with
  | allocate size block =>
    refine ⟨hm.callAllocate hlegal.1 hlegal.2, { Acts.refl t m with
      other := fun v hv => ⟨rfl, rfl, rfl, update_of_ne hv _ _, rfl, rfl, rfl⟩
      change := fun _ => .same rfl rfl }, keeps_allocate ⟨hrest, update_self _ _ _⟩⟩
  | free offset a =>
    obtain ⟨ha, hoff, hfaulting⟩ := hlegal
    refine ⟨hm.callFree ha hfaulting, { Acts.refl t m with
      other := fun v hv => ⟨rfl, rfl, rfl, rfl, update_of_ne hv _ _, rfl, rfl⟩
      change := fun _ => .same rfl rfl
      handed := fun b => ?_
      freeing := fun b hb => ?_ }, keeps_free ⟨hrest, update_self _ _ _, hoff⟩⟩
    · by_cases hba : b = a
      · subst hba
        exact .inr (.inr ⟨ha, update_self _ _ _⟩)
      · exact .inl (update_of_ne hba _ _)
    · have hb : update m.freeing t (some a) t = some b := hb
      rw [update_self] at hb
      exact .inr (Option.some.inj hb ▸ ha)
  | tryMap offset a =>
    refine ⟨hm.callTryMap hlegal.1, { Acts.refl t m with
      other := fun v hv => ⟨rfl, rfl, rfl, rfl, rfl, update_of_ne hv _ _, rfl⟩
      change := fun _ => .same rfl rfl }, keeps_tryMap ⟨hrest, update_self _ _ _, hlegal.2⟩⟩

variable {blank : Descriptor}

omit [FinEnum T] [DecidableEq A] in
theorem sound_zeroed : (zeroed blank : HugeMem T A).Sound where
  heap := HugeInv.zeroed
  stale a ha := by cases ha
  hazard v y hy := by cases hy
  handed a ha := by cases ha
  freeing v a hv := by cases hv
  freeingOnce v w a hv := by cases hv
  faulting v a hv := by cases hv
  unmapping v a hv := by cases hv
  block v b hv := by cases hv
  blockOnce v w b hv := by cases hv

theorem good_zeroed : (recycling validate).Good (Pool.idle (zeroed blank : HugeMem T A)) :=
  good_idle sound_zeroed fun t m' hm' hR =>
    stable_rested _ m' hm' hR fun b hb => by cases hb

/-- **What `refresh` unmaps has not been handed out again**, in any run in which no descriptor
is taken back while a `refresh` is about to unmap it. -/
theorem refresh_unmaps_freed {blank : Descriptor} {w : Pool T (HugeAct T A) (HugeMem T A)}
    {offset size : ℕ} {k : Unit → Prog (HugeAct T A) Unit}
    (hrun : ReflTransGen (Pool.Steps (system validate) NotUnmapping) (Pool.idle (zeroed blank)) w)
    (hprog : w.prog t = .step (.unmap (some a) offset size) k) (hb : w.mem.Listed b)
    (hlive : w.mem.Live b) : Disjoint (w.mem.desc b).range (Finset.Ico offset (offset + size)) :=
  (Protocol.run calls_recycling good_zeroed hrun).needs trivial hprog b hb hlive

/-! ### Two threads and one page -/

variable {k : Descriptor → Prog (HugeAct T A) Unit} {g : Guard T (HugeAct T A) (HugeMem T A)}
  {w : Pool T (HugeAct T A) (HugeMem T A)}

/-- The first range of all. -/
theorem step_first {validate : Bool} {t : T} {n : ℕ}
    (hprog : w.prog t = .step (.allocateRange n) k) (hg : g t Descriptor (.allocateRange n) w.mem)
    (hm : w.mem.toHuge = Huge.zeroed blank) (hn : 0 < n) (hle : n ≤ sizeSlot) :
    Pool.Step (system validate) g t w
      { mem := { w.mem with
          toHuge := { Huge.zeroed blank with
            slots := update (fun _ => none) 0 (some ⟨t, 1⟩)
            hint := 1
            dram := update (fun _ => Dram.default) t ⟨Finset.Ico n sizeSlot, 1⟩ } }
        prog := update w.prog t (k ⟨1, 0, n, .live⟩) } := by
  refine .access hprog hg ?_
  show handle validate t Descriptor (.allocateRange n) w.mem = _
  rw [handle, hm, Huge.zeroed_allocateRange t hn hle]

/-- A range for which there is room. -/
theorem step_fit {validate : Bool} {t : T} {n offset : ℕ}
    (hprog : w.prog t = .step (.allocateRange n) k) (hg : g t Descriptor (.allocateRange n) w.mem)
    (hfit : Dram.firstFit (w.mem.dram t).free n = some offset) :
    Pool.Step (system validate) g t w
      { mem := { w.mem with
          dram := update w.mem.dram t
            ⟨(w.mem.dram t).free \ Finset.Ico offset (offset + n), (w.mem.dram t).index + 1⟩ }
        prog := update w.prog t (k ⟨(w.mem.dram t).index + 1, offset, n, .live⟩) } := by
  refine .access hprog hg ?_
  show handle validate t Descriptor (.allocateRange n) w.mem = _
  rw [handle, Huge.allocateRange_fit hfit]

end Steps

/-- Thread 0 has two pages and thread 1 maps the first; thread 0 frees it, and thread 1 is about
to unmap it. -/
theorem refresh_unmaps_freed_page :
    ∃ (w : Pool (Fin 2) (HugeAct (Fin 2) ℕ) (HugeMem (Fin 2) ℕ)) (k : Unit → Prog _ Unit),
      ReflTransGen (Pool.Steps (system false) NotUnmapping) (Pool.idle (zeroed ⟨0, 0, 0, .safe⟩)) w ∧
      w.prog 1 = .step (.unmap (some 0) 0 4096) k ∧ w.mem.Listed 1 ∧ w.mem.Live 1 ∧
      Disjoint (w.mem.desc 1).range (Finset.Ico 0 (0 + 4096)) := by
  have h₀ := Pool.play_steps (rfl : Pool.play (system (T := Fin 2) (A := ℕ) false) NotUnmapping
    [.call 0 (.allocate 1 0), .go 0 3] (Pool.idle (zeroed ⟨0, 0, 0, .safe⟩)) = _)
  have h₁ := h₀.tail ⟨0, step_first rfl trivial rfl (by decide) (by decide)⟩
  have h₂ := Pool.play_trans h₁ [.go 0 8, .call 0 (.allocate 1 1), .go 0 5] rfl
  have hfit : Dram.firstFit (Finset.Ico 4096 sizeSlot) 4096 = some 4096 :=
    Dram.firstFit_Ico (n := sizeSlot - 4096) (by decide) (by decide)
  have h₃ := h₂.tail ⟨0, step_fit rfl trivial hfit⟩
  have h₄ := Pool.play_trans h₃ [.go 0 8, .call 1 (.tryMap 0 0), .go 1 8,
    .call 0 (.free 0 0), .go 0 13, .call 1 (.allocate 1 2), .go 1 7] rfl
  refine ⟨_, _, h₄, rfl, ⟨0, List.mem_cons_self⟩, ⟨rfl, rfl⟩, ?_⟩
  exact refresh_unmaps_freed (t := 1) (a := 0) h₄ rfl ⟨0, List.mem_cons_self⟩ ⟨rfl, rfl⟩

/-- Thread 1 has mapped a page that thread 0 frees, and is about to unmap it.  Its hazard is
gone, so thread 0 takes the page back and hands it out again: it is unmapped under its new
user. -/
theorem refresh_unmaps_handed :
    ∃ (w : Pool (Fin 2) (HugeAct (Fin 2) ℕ) (HugeMem (Fin 2) ℕ)) (k : Unit → Prog _ Unit),
      ReflTransGen (Pool.Steps (system false) Guard.any) (Pool.idle (zeroed ⟨0, 0, 0, .safe⟩)) w ∧
      w.prog 1 = .step (.unmap (some 0) 0 4096) k ∧
      w.mem.Listed 0 ∧ w.mem.Live 0 ∧ w.mem.handed 0 = true ∧
      (w.mem.desc 0).range = Finset.Ico 0 4096 := by
  have h₀ := Pool.play_steps (rfl : Pool.play (system (T := Fin 2) (A := ℕ) false) Guard.any
    [.call 0 (.allocate 1 0), .go 0 3] (Pool.idle (zeroed ⟨0, 0, 0, .safe⟩)) = _)
  have h₁ := h₀.tail ⟨0, step_first rfl trivial rfl (by decide) (by decide)⟩
  have h₂ := Pool.play_trans h₁ [.go 0 8, .call 1 (.tryMap 0 0), .go 1 7,
    .call 0 (.free 0 0), .go 0 11, .call 1 (.allocate 1 1), .go 1 6, .call 0 (.allocate 1 2),
    .go 0 9] rfl
  have hfree : Finset.Ico 4096 sizeSlot ∪ Finset.Ico 0 (0 + 4096) = Finset.Ico 0 (0 + sizeSlot) := by
    ext x
    simp only [Finset.mem_union, Finset.mem_Ico, sizeSlot]
    omega
  have hfit : Dram.firstFit (Finset.Ico 4096 sizeSlot ∪ Finset.Ico 0 (0 + 4096)) 4096 = some 0 := by
    rw [hfree]
    exact Dram.firstFit_Ico (by decide) (by decide)
  have h₃ := h₂.tail ⟨0, step_fit rfl trivial hfit⟩
  have h₄ := Pool.play_trans h₃ [.go 0 7] rfl
  exact ⟨_, _, h₄, rfl, ⟨0, List.mem_singleton_self 0⟩, ⟨rfl, rfl⟩, rfl, rfl⟩

end HugeMem

end Cxlalloc
