/-
The calls on the huge heap keep its invariant, access by access: `refresh`, `find`, `free`,
`try_map` and `reuse`.

`refresh` may find that a descriptor it saw `Free` has been taken back and given another range
when it reads the offset; then it has no hazard on what it reads (`Acts.cleared`), and unmaps
nothing.  `reuse` goes through the hazards of all threads one after the other; what it has passed
stays without a hazard, as nobody maps a `Free` range (`Acts.scanned`).
-/
import Cxlalloc.Proofs.HugeSteps

namespace Cxlalloc

open Lib
open Lib.Prog (lift)
open Lib.Protocol
open Function

namespace HugeMem

variable {T A : Type} [FinEnum T] [DecidableEq A] {m m' : HugeMem T A} {t u v : T} {a b : A}
  {validate : Bool} {β : Type}

/-! ### The protocol -/

/-- What `refresh` unmaps is not the range of a live descriptor. -/
def UnmapsFreed : Guard T (HugeAct T A) (HugeMem T A) :=
  fun _ _ act m =>
    match act with
    | .unmap (some _) offset size =>
      ∀ b, m.Listed b → m.Live b → Disjoint (m.desc b).range (Finset.Ico offset (offset + size))
    | _ => True

/-- Between two calls, a thread's descriptors have their ranges. -/
def Rested (t : T) (m : HugeMem T A) : Prop :=
  ∀ b ∈ m.list t, m.stale b = false

/-- How threads recycle descriptors. -/
def recycling (validate : Bool) :
    Protocol (system validate : System T (HugeAct T A) (HugeMem T A) Panic) NotUnmapping :=
  ofSteps _ _ Sound Acts UnmapsFreed Rested Acts.refl

theorem stable {J : HugeMem T A → Prop}
    (h : ∀ u m m', u ≠ t → m.Sound → m'.Sound → Acts u m m' → J m → J m') :
    (recycling validate).Stable t J :=
  stable_ofSteps h

omit [FinEnum T] [DecidableEq A] in
theorem Rested.acts (h : Rested t m) (hm : m.Sound) (hu : u ≠ t) (hacts : Acts u m m') :
    Rested t m' := by
  intro b hb
  rw [(hacts.other t hu.symm).list] at hb
  rw [(hacts.own hm hu (.inl hb)).1]
  exact h b hb

theorem stable_rested : (recycling validate).Stable t (Rested t : HugeMem T A → Prop) :=
  stable fun _ _ _ hu hm _ hacts h => h.acts hm hu hacts

variable {w : T}

theorem stable_suffix {l : List A} :
    (recycling validate).Stable t fun m : HugeMem T A => l <:+ m.list w :=
  stable fun _ _ _ _ _ _ hacts h => h.trans (hacts.suffix w)

/-- A read. -/
theorem does_read {act : HugeAct T A β} {J : HugeMem T A → Prop} (f : HugeMem T A → β)
    (hneeds : ∀ m, UnmapsFreed t β act m) (hact : ∀ m, handle validate t β act m = .ok (f m, m)) :
    (recycling validate).Does t J act fun b m => J m ∧ b = f m := by
  refine fun m hm hJ => ⟨hneeds m, fun _ b m' h => ?_⟩
  have h : handle validate t β act m = .ok (b, m') := h
  rw [hact] at h
  obtain ⟨rfl, rfl⟩ := ok_inj h
  exact ⟨hm, .refl t m, hJ, rfl⟩

/-- An access that unmaps nothing for `refresh`. -/
theorem does {act : HugeAct T A β} {J : HugeMem T A → Prop} {J' : β → HugeMem T A → Prop}
    (hneeds : ∀ m, UnmapsFreed t β act m)
    (h : ∀ m b m', m.Sound → J m → NotUnmapping t β act m →
      handle validate t β act m = .ok (b, m') → m'.Sound ∧ Acts t m m' ∧ J' b m') :
    (recycling validate).Does t J act J' :=
  fun m hm hJ => ⟨hneeds m, fun hg b m' hb => h m b m' hm hJ hg hb⟩

theorem keeps_stop {α : Type} {e : Panic} {Q : α → HugeMem T A → Prop} :
    (recycling validate).Keeps t (HugeAct.stop e) Q m :=
  fun _ _ _ => ⟨trivial, fun _ b => b.elim⟩

variable {J : HugeMem T A → Prop} {x : ℕ}

/-! ### `refresh` -/

/-- What is known does not depend on a thread's hazards. -/
def Frame (t : T) (J : HugeMem T A → Prop) : Prop :=
  ∀ m hz un, J m → J { m with hazards := update m.hazards t hz, unmapping := update m.unmapping t un }

theorem mem_of_mem_swapRemove {l : List ℕ} {y : ℕ} (h : y ∈ swapRemove l x) : y ∈ l := by
  rw [swapRemove] at h
  split at h
  · rename_i i last hi hlast
    have hy := List.mem_of_mem_dropLast h
    rcases List.mem_or_eq_of_mem_set hy with hy | rfl
    · exact hy
    · exact List.mem_of_getLast? hlast
  · exact h

omit [DecidableEq A] in
/-- Giving up a hazard, and noting for which descriptor. -/
theorem Sound.drop (hm : m.Sound) {hz : List ℕ} {un : Option A} (hsub : ∀ y ∈ hz, y ∈ m.hazards t)
    (hun : ∀ a, un = some a → m.Listed a ∧ (m.desc a).state = .free) :
    ({ m with
        hazards := update m.hazards t hz
        unmapping := update m.unmapping t un } : HugeMem T A).Sound := by
  refine { hm with heap := hm.heap.hazards _, hazard := fun v y hy => ?_, unmapping := fun v a ha => ?_ }
  · have hy : y ∈ update m.hazards t hz v := hy
    by_cases hv : v = t
    · subst hv
      rw [update_self] at hy
      exact hm.hazard v y (hsub y hy)
    · rw [update_of_ne hv] at hy
      exact hm.hazard v y hy
  · rcases update_eq_some_iff.mp ha with ⟨-, ha⟩ | ⟨-, ha⟩
    · exact hun a ha
    · exact hm.unmapping v a ha

omit [DecidableEq A] in
theorem acts_drop {hz : List ℕ} {un : Option A} (hsub : ∀ y ∈ hz, y ∈ m.hazards t) :
    Acts t m { m with
      hazards := update m.hazards t hz
      unmapping := update m.unmapping t un } :=
  { Acts.refl t m with
    other := fun v hv => ⟨rfl, rfl, update_of_ne hv _ _, rfl, rfl, rfl, update_of_ne hv _ _⟩
    change := fun _ => .same rfl rfl
    hazard := fun y hy => .inl (hsub y (by simpa using hy)) }

/-- Dropping the hazard on a range that is still `Free` if there is one. -/
theorem does_swapRemove {K : HugeMem T A → Prop} {next : Option A} (hJ : Frame t J)
    (hnext : ∀ m a, m.Sound → K m → next = some a → x ∈ m.hazards t →
      m.Listed a ∧ (m.desc a).state = .free) :
    (recycling validate).Does t (fun m => J m ∧ K m) (.swapRemove x next) fun b m =>
      J m ∧ (b = true → m.unmapping t = next) := by
  refine does (fun _ => trivial) fun m b m' hm hj _ h => ?_
  rw [handle] at h
  split_ifs at h with hx
  · obtain ⟨rfl, rfl⟩ := ok_inj h
    have hsub : ∀ y ∈ swapRemove (m.hazards t) x, y ∈ m.hazards t := fun y => mem_of_mem_swapRemove
    exact ⟨hm.drop hsub fun a ha => hnext m a hm hj.2 ha hx, acts_drop hsub, hJ m _ _ hj.1,
      fun _ => update_self _ _ _⟩
  · obtain ⟨rfl, rfl⟩ := ok_inj h
    exact ⟨hm, .refl t m, hj.1, fun hb => by cases hb⟩

omit [DecidableEq A] in
theorem acts_unmap : Acts t m { m with unmapping := update m.unmapping t none } := by
  have h : Acts t m { m with
      hazards := update m.hazards t (m.hazards t)
      unmapping := update m.unmapping t none } := acts_drop fun _ h => h
  rwa [update_eq_self] at h

omit [DecidableEq A] in
theorem Sound.unmap (hm : m.Sound) :
    ({ m with unmapping := update m.unmapping t none } : HugeMem T A).Sound := by
  have h : ({ m with
      hazards := update m.hazards t (m.hazards t)
      unmapping := update m.unmapping t none } : HugeMem T A).Sound :=
    hm.drop (fun _ h => h) fun a ha => by cases ha
  rwa [update_eq_self] at h

omit [DecidableEq A] in
theorem Frame.unmap (hJ : Frame t J) (hm : J m) :
    J { m with unmapping := update m.unmapping t none } := by
  have h := hJ m (m.hazards t) none hm
  rwa [update_eq_self] at h

theorem does_unmap_refresh {size : ℕ} (hJ : Frame t J) :
    (recycling validate).Does t
      (fun m => J m ∧ m.unmapping t = some a ∧ (x, size) = ((m.desc a).offset, (m.desc a).size))
      (.unmap (some a) x size) fun _ m => J m := by
  rintro m hm ⟨hj, ha, hd⟩
  obtain ⟨rfl, rfl⟩ := Prod.mk.inj hd
  refine ⟨fun b hb hlive => hm.unmapping_disjoint ha hb hlive, fun _ b m' h => ?_⟩
  obtain ⟨-, rfl⟩ := ok_inj h
  exact ⟨hm.unmap, acts_unmap, hJ.unmap hj⟩

theorem does_unmap {size : ℕ} (hJ : Frame t J) :
    (recycling validate).Does t J (.unmap none x size) fun _ m => J m := by
  refine does (fun _ => trivial) fun m b m' hm hj _ h => ?_
  obtain ⟨-, rfl⟩ := ok_inj h
  exact ⟨hm.unmap, acts_unmap, hJ.unmap hj⟩

theorem does_loadHead : (recycling validate).Does t J (.loadHead w) fun l m => J m ∧ l = m.list w :=
  does_read (fun m => m.list w) (fun _ => trivial) fun _ => rfl

theorem does_loadState :
    (recycling validate).Does t J (.loadState a) fun s m => J m ∧ s = (m.desc a).state :=
  does_read (fun m => (m.desc a).state) (fun _ => trivial) fun _ => rfl

theorem does_loadRange :
    (recycling validate).Does t J (.loadRange a) fun r m =>
      J m ∧ r = ((m.desc a).offset, (m.desc a).size) :=
  does_read (fun m => ((m.desc a).offset, (m.desc a).size)) (fun _ => trivial) fun _ => rfl

theorem stable_cleared {l : List A} : (recycling validate).Stable t fun m : HugeMem T A =>
    a :: l <:+ m.list w ∧ ((m.desc a).state = .free ∨ (m.desc a).offset ∉ m.hazards t) := by
  refine stable fun u m m' hu hm hm' hacts h => ⟨h.1.trans (hacts.suffix w), ?_⟩
  exact hacts.cleared hm hm' hu ⟨w, h.1.subset List.mem_cons_self⟩ h.2

theorem stable_seen {l : List A} : (recycling validate).Stable t fun m : HugeMem T A =>
    a :: l <:+ m.list w ∧ ((m.desc a).state = .free ∧ (m.desc a).offset = x ∨ x ∉ m.hazards t) := by
  refine stable fun u m m' hu hm _ hacts h => ⟨h.1.trans (hacts.suffix w), ?_⟩
  have ha : m.Listed a := ⟨w, h.1.subset List.mem_cons_self⟩
  rw [(hacts.other t hu.symm).hazards]
  rcases h.2 with ⟨hfree, hoff⟩ | hx
  · cases hacts.change a with
    | same hdesc => exact .inl (by rw [hdesc]; exact ⟨hfree, hoff⟩)
    | freed _ hdesc => exact .inl (by rw [hdesc]; exact ⟨rfl, hoff⟩)
    | retired _ _ hclear => exact .inr (hoff ▸ hclear t)
    | marked _ hunused => exact absurd (hm.inUse_of_free hfree) (hunused ha)
    | filled _ hunused => exact absurd (hm.inUse_of_free hfree) (hunused ha)
  · exact .inr hx

theorem stable_dropped {p : Descriptor → Prop} : (recycling validate).Stable t
    fun m : HugeMem T A => m.unmapping t = some a ∧ p (m.desc a) := by
  refine stable fun u m m' hu hm _ hacts h => ?_
  rw [(hacts.other t hu.symm).unmapping, hacts.dropped hm h.1]
  exact h

theorem keeps_refreshList {l : List A} (hJ : Frame t J)
    (hstable : (recycling validate).Stable t J) (hm : J m ∧ l <:+ m.list w) :
    (recycling validate).Keeps t (HugeAct.refreshList l) (fun _ m' => J m') m := by
  induction l generalizing m with
  | nil => exact keeps_pure hstable hm.1
  | cons a l ih =>
    have hl : Frame t fun m : HugeMem T A => J m ∧ a :: l <:+ m.list w :=
      fun m hz un h => ⟨hJ m hz un h.1, h.2⟩
    have hstable' : (recycling validate).Stable t fun m => J m ∧ a :: l <:+ m.list w :=
      hstable.and stable_suffix
    have hrest : ∀ m : HugeMem T A, J m ∧ a :: l <:+ m.list w →
        (recycling validate).Keeps t (HugeAct.refreshList l) (fun _ m' => J m') m :=
      fun m h => ih ⟨h.1, (List.suffix_cons a l).trans h.2⟩
    refine keeps_access does_loadState hstable' (fun s m₁ _ h₁ => ?_) hm
    obtain ⟨h₁, hs⟩ := h₁
    refine keeps_ite (fun hfree => ?_) fun _ => hrest m₁ h₁
    refine keeps_access does_loadRange (hstable.and stable_cleared) (fun r m₂ _ h₂ => ?_)
      ⟨h₁.1, h₁.2, .inl (hs.symm.trans hfree)⟩
    obtain ⟨⟨hj, hsuf, hclear⟩, rfl⟩ := h₂
    refine keeps_access (does_swapRemove hl fun m b hm h hb hx => ?_)
      (hstable'.and (stable_seen (x := (m₂.desc a).offset))) (fun found m₃ _ h₃ => ?_)
      ⟨⟨hj, hsuf⟩, hsuf, hclear.imp_left fun h => ⟨h, rfl⟩⟩
    · obtain rfl := Option.some.inj hb
      refine ⟨⟨w, h.1.subset List.mem_cons_self⟩, ?_⟩
      exact (h.2.resolve_right (not_not_intro hx)).1
    · obtain ⟨h₃, hun⟩ := h₃
      refine keeps_ite (fun hfound => ?_) fun _ => hrest m₃ h₃
      refine keeps_access does_loadRange
        (hstable'.and (stable_dropped (p := fun _ => True))) (fun r m₄ _ h₄ => ?_)
        ⟨h₃, hun hfound, trivial⟩
      obtain ⟨⟨h₄, hun₄, -⟩, hr⟩ := h₄
      refine keeps_access (does_unmap_refresh hl) (hstable'.and
        (stable_dropped (p := fun d => r = (d.offset, d.size)))) (fun _ m₅ _ h₅ => hrest m₅ h₅)
        ⟨h₄, hun₄, hr⟩

theorem keeps_refreshFrom {ids : List T} (hJ : Frame t J)
    (hstable : (recycling validate).Stable t J) (hm : J m) :
    (recycling validate).Keeps t (HugeAct.refreshFrom ids) (fun _ m' => J m') m := by
  induction ids generalizing m with
  | nil => exact keeps_pure hstable hm
  | cons id ids ih =>
    refine keeps_access does_loadHead hstable (fun l m₁ _ h₁ => ?_) hm
    obtain ⟨h₁, rfl⟩ := h₁
    refine keeps_bind ((keeps_refreshList (w := id) hJ hstable ⟨h₁, List.suffix_rfl⟩).mono ?_)
    exact fun _ m₂ h₂ => ih h₂

/-- `refresh` drops hazards and unmaps, and does nothing else. -/
theorem keeps_refresh (hJ : Frame t J) (hstable : (recycling validate).Stable t J) (hm : J m) :
    (recycling validate).Keeps t HugeAct.refresh (fun _ m' => J m') m :=
  keeps_refreshFrom hJ hstable hm

/-! ### `find` -/

theorem stable_mem : (recycling validate).Stable t fun m : HugeMem T A => a ∈ m.list w :=
  stable fun _ _ _ _ _ _ hacts h => (hacts.suffix w).subset h

theorem keeps_walk {l : List A} (hstable : (recycling validate).Stable t J)
    (hx : ∀ m, m.Sound → J m → m.InUse a ∧ x ∈ (m.desc a).range) (ha : a ∈ l)
    (hm : J m ∧ l <:+ m.list w) :
    (recycling validate).Keeps t (HugeAct.walk x l) (fun r m' => r = some a ∧ J m') m := by
  induction l generalizing m with
  | nil => cases ha
  | cons b l ih =>
    refine keeps_access does_loadRange (hstable.and stable_suffix) (fun r m₁ hm₁ h₁ => ?_) hm
    have hm₁ : m₁.Sound := hm₁
    obtain ⟨⟨hj, hsuf⟩, rfl⟩ := h₁
    obtain ⟨ua, hxa⟩ := hx m₁ hm₁ hj
    refine keeps_ite (fun hc => ?_) fun hc => ?_
    · have hxb : x ∈ (m₁.desc b).range := Finset.mem_Ico.mpr hc
      have hba : b = a := by
        by_contra hne
        obtain ⟨pre, post, rfl⟩ := List.append_of_mem ((List.mem_cons.mp ha).resolve_left (Ne.symm hne))
        rw [← List.cons_append] at hsuf
        exact hm₁.front hsuf ua hxa List.mem_cons_self hxb
      subst hba
      refine keeps_pure (fun m m' hI hR h => ⟨h.1, hstable m m' hI hR h.2⟩) ⟨rfl, hj⟩
    · have hne : a ≠ b := by
        rintro rfl
        exact hc (Finset.mem_Ico.mp hxa)
      exact ih ((List.mem_cons.mp ha).resolve_left hne) ⟨hj, (List.suffix_cons b l).trans hsuf⟩

theorem does_findOwner :
    (recycling validate).Does t J (.findOwner x) fun r m => J m ∧ r = m.toHuge.findOwner x :=
  does_read (fun m => m.toHuge.findOwner x) (fun _ => trivial) fun _ => rfl

/-- `find` returns the descriptor a thread has a pointer into. -/
theorem keeps_find (hstable : (recycling validate).Stable t J)
    (hx : ∀ m, m.Sound → J m → m.Listed a ∧ m.InUse a ∧ x ∈ (m.desc a).range) (hm : J m) :
    (recycling validate).Keeps t (HugeAct.find x) (fun r m' => r = some a ∧ J m') m := by
  refine keeps_access does_findOwner hstable (fun r m₁ hm₁ h₁ => ?_) hm
  have hm₁ : m₁.Sound := hm₁
  obtain ⟨hj, rfl⟩ := h₁
  obtain ⟨⟨w, hw⟩, ua, hxa⟩ := hx m₁ hm₁ hj
  rw [hm₁.findOwner_eq hw ua hxa]
  refine keeps_access does_loadHead (hstable.and stable_mem) (fun l m₂ _ h₂ => ?_) ⟨hj, hw⟩
  obtain ⟨⟨hj₂, hw₂⟩, rfl⟩ := h₂
  exact keeps_walk hstable (fun m hm h => (hx m hm h).2) hw₂ ⟨hj₂, List.suffix_rfl⟩

/-! ### `free` -/

theorem Sound.setFree (hm : m.Sound) (ha : m.freeing t = some a) :
    ({ m with
        desc := update m.desc a { m.desc a with state := .free }
        freeing := update m.freeing t none } : HugeMem T A).Sound := by
  obtain ⟨hl, hlive, hhanded⟩ := hm.freeing t a ha
  have hdesc : ∀ {b}, b ≠ a →
      update m.desc a { m.desc a with state := .free } b = m.desc b := fun hb => update_of_ne hb _ _
  have hself : update m.desc a { m.desc a with state := .free } a = { m.desc a with state := .free } :=
    update_self _ _ _
  have hfreeing : ∀ v b, update m.freeing t none v = some b → m.freeing v = some b ∧ b ≠ a := by
    intro v b hv
    rcases update_eq_some_iff.mp hv with ⟨-, ⟨⟩⟩ | ⟨hvt, hv⟩
    refine ⟨hv, ?_⟩
    rintro rfl
    exact hvt (hm.freeingOnce v t b hv ha)
  refine { hm with
    heap := ?_, stale := ?_, hazard := ?_, handed := ?_, freeing := ?_, freeingOnce := ?_, unmapping := ?_ }
  · have h := hm.heap.setFree (settled_inUse.mpr hlive.inUse)
    rw [settled_eq hlive.2] at h
    rw [settled]
    simp only [settled_write hlive.2 fun _ _ => rfl]
    exact h
  · intro b hb
    have hba : b ≠ a := by
      rintro rfl
      rw [hlive.2] at hb
      cases hb
    simp only [hdesc hba]
    exact hm.stale b hb
  · intro v y hy
    obtain ⟨b, hb, ub, hoff⟩ := hm.hazard v y hy
    refine ⟨b, hb, ?_⟩
    by_cases hba : b = a
    · subst hba
      refine ⟨⟨by simp, ub.2⟩, ?_⟩
      simp only [hself]
      exact hoff
    · refine ⟨ub.congr (hdesc hba) rfl, ?_⟩
      simp only [hdesc hba]
      exact hoff
  · intro b hb
    have hba : b ≠ a := by
      rintro rfl
      rw [hhanded] at hb
      cases hb
    obtain ⟨hlb, hlive⟩ := hm.handed b hb
    exact ⟨hlb, hlive.congr (hdesc hba) rfl⟩
  · intro v b hv
    obtain ⟨hv, hba⟩ := hfreeing v b hv
    obtain ⟨hlb, hlive, hh⟩ := hm.freeing v b hv
    exact ⟨hlb, hlive.congr (hdesc hba) rfl, hh⟩
  · intro v w b hv hw
    exact hm.freeingOnce v w b (hfreeing v b hv).1 (hfreeing w b hw).1
  · intro v b hv
    obtain ⟨hlb, hfree⟩ := hm.unmapping v b hv
    refine ⟨hlb, ?_⟩
    by_cases hba : b = a
    · subst hba
      simp only [hself]
    · simp only [hdesc hba]
      exact hfree

theorem acts_setFree (ha : m.freeing t = some a) :
    Acts t m { m with
      desc := update m.desc a { m.desc a with state := .free }
      freeing := update m.freeing t none } where
  other v hv := ⟨rfl, rfl, rfl, rfl, update_of_ne hv _ _, rfl, rfl⟩
  list := List.suffix_rfl
  change b := by
    by_cases hb : b = a
    · subst hb
      exact .freed ha (update_self _ _ _) rfl
    · exact .same (update_of_ne hb _ _) rfl
  handed _ := .inl rfl
  freeing b hb := by simp at hb
  hazard _ h := .inl h
  claimed _ _ h := h

/-- Thread `t` is freeing the block at `x`. -/
structure Freeing (t : T) (a : A) (x : ℕ) (m : HugeMem T A) : Prop where
  rested : Rested t m
  freeing : m.freeing t = some a
  offset : (m.desc a).offset = x

omit [FinEnum T] [DecidableEq A] in
theorem Freeing.inUse (hm : m.Sound) (h : Freeing t a x m) :
    m.Listed a ∧ m.InUse a ∧ x ∈ (m.desc a).range := by
  obtain ⟨hl, hlive⟩ := hm.using_live (.inl h.freeing)
  have hpos := hm.pos hl hlive.inUse
  have hoff := h.offset
  exact ⟨hl, hlive.inUse, Finset.mem_Ico.mpr ⟨hoff.le, by omega⟩⟩

theorem stable_freeing : (recycling validate).Stable t (Freeing t a x : HugeMem T A → Prop) := by
  refine stable fun u m m' hu hm _ hacts h => ⟨h.rested.acts hm hu hacts, ?_, ?_⟩
  · rw [(hacts.other t hu.symm).freeing]
    exact h.freeing
  · rw [(hacts.used hm hu (.inl h.freeing)).2]
    exact h.offset

omit [DecidableEq A] in
theorem frame_freeing : Frame t (Freeing t a x : HugeMem T A → Prop) :=
  fun _ _ _ h => ⟨h.rested, h.freeing, h.offset⟩

theorem does_storeFree :
    (recycling validate).Does t (Freeing t a x) (.storeState a .free) fun _ m => Rested t m := by
  refine does (fun _ => trivial) fun m b m' hm hj _ h => ?_
  obtain ⟨-, rfl⟩ := ok_inj h
  exact ⟨hm.setFree hj.freeing, acts_setFree hj.freeing, hj.rested⟩

theorem keeps_free (hm : Freeing t a x m) :
    (recycling validate).Keeps t (HugeAct.free x) (fun _ => Rested t) m := by
  refine keeps_bind ((keeps_refresh frame_freeing stable_freeing hm).mono fun _ m₁ h₁ => ?_)
  refine keeps_bind ((keeps_find stable_freeing (fun m hm h => h.inUse hm) h₁).mono ?_)
  rintro r m₂ ⟨rfl, h₂⟩
  refine keeps_access does_loadRange stable_freeing (fun r m₃ _ h₃ => ?_) h₂
  refine keeps_access (does_unmap frame_freeing) stable_freeing (fun _ m₄ _ h₄ => ?_) h₃.1
  refine keeps_access does_loadRange stable_freeing (fun r' m₅ _ h₅ => ?_) h₄
  refine keeps_access (does_swapRemove (K := fun _ => True) frame_freeing fun m b _ _ hb => ?_)
    (stable_freeing.and fun _ _ _ _ h => h) (fun _ m₆ _ h₆ => ?_) ⟨h₅.1, trivial⟩
  · cases hb
  · exact keeps_lift does_storeFree stable_freeing (fun _ => stable_rested) h₆.1

/-! ### `try_map` -/

omit [DecidableEq A] in
/-- A hazard on a range in use. -/
theorem Sound.insert (hm : m.Sound) (ha : m.Listed a) (ua : m.InUse a) :
    ({ m with
        hazards := update m.hazards t (m.hazards t ++ [(m.desc a).offset])
        faulting := update m.faulting t none } : HugeMem T A).Sound := by
  refine { hm with heap := hm.heap.hazards _, hazard := fun v y hy => ?_, faulting := fun v b hv => ?_ }
  · have hy : y ∈ update m.hazards t (m.hazards t ++ [(m.desc a).offset]) v := hy
    by_cases hv : v = t
    · subst hv
      rw [update_self, List.mem_append, List.mem_singleton] at hy
      rcases hy with hy | rfl
      · exact hm.hazard v y hy
      · exact ⟨a, ha, ua, rfl⟩
    · rw [update_of_ne hv] at hy
      exact hm.hazard v y hy
  · rcases update_eq_some_iff.mp hv with ⟨-, ⟨⟩⟩ | ⟨-, hv⟩
    exact hm.faulting v b hv

omit [DecidableEq A] in
theorem acts_insert (ua : m.InUse a) (ha : a ∈ m.list t ∨ m.Listed a ∧ m.Live a) :
    Acts t m { m with
      hazards := update m.hazards t (m.hazards t ++ [(m.desc a).offset])
      faulting := update m.faulting t none } :=
  { Acts.refl t m with
    other := fun v hv => ⟨rfl, rfl, update_of_ne hv _ _, rfl, rfl, update_of_ne hv _ _, rfl⟩
    change := fun _ => .same rfl rfl
    hazard := fun y hy => by
      have hy : y ∈ update m.hazards t (m.hazards t ++ [(m.desc a).offset]) t := hy
      rw [update_self, List.mem_append, List.mem_singleton] at hy
      rcases hy with hy | rfl
      · exact .inl hy
      · exact .inr ⟨a, ua, rfl, ha⟩ }

theorem does_insert {K : HugeMem T A → Prop}
    (hx : ∀ m, m.Sound → J m → (m.desc a).offset = x ∧ m.InUse a ∧
      (a ∈ m.list t ∨ m.Listed a ∧ m.Live a))
    (hK : ∀ m hz fa, J m → K { m with hazards := hz, faulting := fa }) :
    (recycling validate).Does t J (.insert x) fun _ m => K m := by
  refine does (fun _ => trivial) fun m b m' hm hj _ h => ?_
  obtain ⟨rfl, ua, ha⟩ := hx m hm hj
  rw [handle, Huge.insertHazard] at h
  split_ifs at h with htaken hroom
  obtain ⟨-, rfl⟩ := ok_inj h
  have hl : m.Listed a := ha.elim (fun ha => ⟨t, ha⟩) fun ha => ha.1
  exact ⟨hm.insert hl ua, acts_insert ua ha, hK m _ _ hj⟩

theorem does_map {size : ℕ} : (recycling validate).Does t J (.map x size) fun _ m => J m := by
  have h : (recycling validate).Does t J (.map x size) fun b m => J m ∧ b = () :=
    does_read (fun _ => ()) (fun _ => trivial) fun _ => rfl
  exact h.mono (fun _ h => h) fun _ _ h => h.1

/-- Thread `t` has faulted on an address in a range. -/
structure Faulting (t : T) (a : A) (p : Descriptor → Prop) (m : HugeMem T A) : Prop where
  rested : Rested t m
  faulting : m.faulting t = some a
  desc : p (m.desc a)

theorem stable_faulting {p : Descriptor → Prop} :
    (recycling validate).Stable t (Faulting t a p : HugeMem T A → Prop) := by
  refine stable fun u m m' hu hm _ hacts h => ⟨h.rested.acts hm hu hacts, ?_, ?_⟩
  · rw [(hacts.other t hu.symm).faulting]
    exact h.faulting
  · rw [(hacts.used hm hu (.inr h.faulting)).2]
    exact h.desc

theorem keeps_tryMap (hm : Faulting t a (fun d => x ∈ d.range) m) :
    (recycling validate).Keeps t (HugeAct.tryMap x) (fun _ => Rested t) m := by
  have hlive : ∀ {p} (m : HugeMem T A), m.Sound → Faulting t a p m → m.Listed a ∧ m.Live a :=
    fun m hm h => hm.using_live (.inr h.faulting)
  refine keeps_bind ((keeps_find (a := a) stable_faulting (fun m hm h => ?_) hm).mono ?_)
  · obtain ⟨hl, hlive⟩ := hlive m hm h
    exact ⟨hl, hlive.inUse, h.desc⟩
  · rintro r m₁ ⟨rfl, h₁⟩
    refine keeps_access does_loadRange stable_faulting (fun r m₂ _ h₂ => ?_) h₁
    obtain ⟨h₂, rfl⟩ := h₂
    refine keeps_access (does_insert (a := a) (K := Rested t) (fun m hm h => ?_) fun m hz fa h => ?_)
      (stable_faulting (p := fun d => d.offset = (m₂.desc a).offset)) (fun _ m₃ _ h₃ => ?_)
      ⟨h₂.rested, h₂.faulting, rfl⟩
    · obtain ⟨hl, hlive⟩ := hlive m hm h
      exact ⟨h.desc, hlive.inUse, .inr ⟨hl, hlive⟩⟩
    · exact h.rested
    · refine keeps_access does_loadRange stable_rested (fun r m₄ _ h₄ => ?_) h₃
      exact keeps_lift does_map stable_rested (fun _ => stable_rested) h₄.1

/-! ### `reuse` -/

/-- The range of a `Free` descriptor on which there is no hazard. -/
theorem Sound.retire (hm : m.Sound) (ha : a ∈ m.list t) (hfree : (m.desc a).state = .free)
    (hclear : ∀ v, (m.desc a).offset ∉ m.hazards v) (hguard : ∀ v, m.unmapping v ≠ some a) :
    ({ m with
        dram := update m.dram t ((m.dram t).uncover (m.desc a).offset (m.desc a).size)
        desc := update m.desc a { m.desc a with state := .safe } } : HugeMem T A).Sound := by
  have hstale := (hm.inUse_of_free hfree).2
  have hdesc : ∀ {b}, b ≠ a →
      update m.desc a { m.desc a with state := .safe } b = m.desc b := fun hb => update_of_ne hb _ _
  have hlive : ∀ {b}, m.Live b → b ≠ a := by
    rintro b h rfl
    rw [h.1] at hfree
    cases hfree
  refine { hm with heap := ?_, stale := ?_, hazard := ?_, handed := ?_, freeing := ?_, unmapping := ?_ }
  · have h := hm.heap.retire ha (by rw [settled_eq hstale]; exact hfree)
    rw [settled_eq hstale] at h
    rw [settled]
    simp only [settled_write hstale fun _ _ => rfl]
    exact h
  · intro b hb
    have hba : b ≠ a := by
      rintro rfl
      rw [hstale] at hb
      cases hb
    simp only [hdesc hba]
    exact hm.stale b hb
  · intro v y hy
    obtain ⟨b, hb, ub, hoff⟩ := hm.hazard v y hy
    have hba : b ≠ a := by
      rintro rfl
      exact hclear v (hoff ▸ hy)
    refine ⟨b, hb, ub.congr (hdesc hba) rfl, ?_⟩
    simp only [hdesc hba]
    exact hoff
  · intro b hb
    obtain ⟨hlb, hl⟩ := hm.handed b hb
    exact ⟨hlb, hl.congr (hdesc (hlive hl)) rfl⟩
  · intro v b hv
    obtain ⟨hlb, hl, hh⟩ := hm.freeing v b hv
    exact ⟨hlb, hl.congr (hdesc (hlive hl)) rfl, hh⟩
  · intro v b hv
    obtain ⟨hlb, hf⟩ := hm.unmapping v b hv
    have hba : b ≠ a := by
      rintro rfl
      exact hguard v hv
    refine ⟨hlb, ?_⟩
    simp only [hdesc hba]
    exact hf

theorem acts_retire (ha : a ∈ m.list t) (hfree : (m.desc a).state = .free)
    (hclear : ∀ v, (m.desc a).offset ∉ m.hazards v) (hguard : ∀ v, m.unmapping v ≠ some a) :
    Acts t m { m with
      dram := update m.dram t ((m.dram t).uncover (m.desc a).offset (m.desc a).size)
      desc := update m.desc a { m.desc a with state := .safe } } where
  other v hv := ⟨rfl, update_of_ne hv _ _, rfl, rfl, rfl, rfl, rfl⟩
  list := List.suffix_rfl
  change b := by
    by_cases hb : b = a
    · subst hb
      exact .retired ha hfree hclear hguard (update_self _ _ _) rfl
    · exact .same (update_of_ne hb _ _) rfl
  handed _ := .inl rfl
  freeing _ h := .inl h
  hazard _ h := .inl h
  claimed _ _ h := h

/-- The rest of a thread's list is still to be looked at. -/
structure Scan (t : T) (block : A) (safe : Option A) (done l : List A) (m : HugeMem T A) : Prop where
  rested : Rested t m
  block : m.block t = some block
  list : m.list t = done ++ l
  none : safe = none → ∀ b ∈ done, m.InUse b
  some : ∀ a, safe = some a → ∃ pre post, done = pre ++ a :: post ∧
    (m.desc a).state = .safe ∧ ∀ b ∈ pre, m.InUse b

variable {safe : Option A} {done l : List A} {block : A}

theorem stable_scan :
    (recycling validate).Stable t (Scan t block safe done l : HugeMem T A → Prop) := by
  refine stable fun u m m' hu hm _ hacts h => ?_
  have hmine : ∀ b ∈ done, Mine t b m := fun b hb => .inl (by simp [h.list, hb])
  have hinUse : ∀ b ∈ done, m.InUse b → m'.InUse b :=
    fun b hb => (hacts.own_inUse hm hu (hmine b hb)).mpr
  refine ⟨h.rested.acts hm hu hacts, ?_, ?_, fun hs b hb => hinUse b hb (h.none hs b hb), ?_⟩
  · rw [(hacts.other t hu.symm).block]
    exact h.block
  · rw [(hacts.other t hu.symm).list]
    exact h.list
  · intro a ha
    obtain ⟨pre, post, rfl, hsafe, hpre⟩ := h.some a ha
    have hd : m'.desc a = m.desc a :=
      (hacts.own_eq hm hu (hmine a (by simp)) fun hl => by rw [hl.1] at hsafe; cases hsafe).1
    exact ⟨pre, post, rfl, hd ▸ hsafe, fun b hb => hinUse b (by simp [hb]) (hpre b hb)⟩

omit [FinEnum T] [DecidableEq A] in
theorem Scan.next_used (h : Scan t block safe done (a :: l) m) (ua : m.InUse a) :
    Scan t block safe (done ++ [a]) l m := by
  refine ⟨h.rested, h.block, by rw [h.list, List.append_assoc]; rfl, fun hs b hb => ?_, fun s hs => ?_⟩
  · rcases List.mem_append.mp hb with hb | hb
    · exact h.none hs b hb
    · rw [List.mem_singleton.mp hb]
      exact ua
  · obtain ⟨pre, post, hdone, hsafe, hpre⟩ := h.some s hs
    exact ⟨pre, post ++ [a], by simp [hdone], hsafe, hpre⟩

omit [FinEnum T] [DecidableEq A] in
theorem Scan.next_safe (h : Scan t block safe done (a :: l) m) (ha : (m.desc a).state = .safe) :
    Scan t block (safe.or (Option.some a)) (done ++ [a]) l m := by
  refine ⟨h.rested, h.block, by rw [h.list, List.append_assoc]; rfl, fun hs b hb => ?_, fun s hs => ?_⟩
  · cases safe with
    | none => cases hs
    | some s => cases hs
  · cases safe with
    | none =>
      obtain rfl := Option.some.inj hs
      exact ⟨done, [], rfl, ha, h.none rfl⟩
    | some s' =>
      obtain ⟨pre, post, hdone, hsafe, hpre⟩ := h.some s hs
      exact ⟨pre, post ++ [a], by simp [hdone], hsafe, hpre⟩

omit [FinEnum T] in
theorem Scan.retire (hm : m.Sound) (h : Scan t block safe done (a :: l) m) (dram : T → Dram) :
    Scan t block safe done (a :: l)
      { m with dram := dram, desc := update m.desc a { m.desc a with state := .safe } } := by
  have hnodup : (m.list t).Nodup := hm.heap.nodup t
  rw [h.list] at hnodup
  have hdesc : ∀ b ∈ done, update m.desc a { m.desc a with state := .safe } b = m.desc b := by
    intro b hb
    refine update_of_ne ?_ _ _
    rintro rfl
    exact (List.nodup_append.mp hnodup).2.2 b hb b List.mem_cons_self rfl
  refine ⟨h.rested, h.block, h.list, fun hs b hb => ?_, fun s hs => ?_⟩
  · exact (h.none hs b hb).congr (hdesc b hb) rfl
  · obtain ⟨pre, post, hdone, hsafe, hpre⟩ := h.some s hs
    refine ⟨pre, post, hdone, ?_, fun b hb => ?_⟩
    · simp only [hdesc s (by simp [hdone])]
      exact hsafe
    · exact (hpre b hb).congr (hdesc b (by simp [hdone, hb])) rfl

/-- A `Free` descriptor of a thread, on whose range some threads have no hazard. -/
structure Clear (t : T) (a : A) (x : ℕ) (seen : T → Prop) (m : HugeMem T A) : Prop where
  mem : a ∈ m.list t
  free : (m.desc a).state = .free
  offset : (m.desc a).offset = x
  hazards : ∀ v, seen v → x ∉ m.hazards v

theorem stable_clear {seen : T → Prop} :
    (recycling validate).Stable t (Clear t a x seen : HugeMem T A → Prop) := by
  refine stable fun u m m' hu hm _ hacts h => ?_
  have hd : m'.desc a = m.desc a := by
    refine (hacts.own_eq hm hu (.inl h.mem) fun hl => ?_).1
    have hfree := h.free
    rw [hl.1] at hfree
    cases hfree
  refine ⟨?_, by rw [hd]; exact h.free, by rw [hd]; exact h.offset, fun v hv => ?_⟩
  · rw [(hacts.other t hu.symm).list]
    exact h.mem
  · have hx := h.hazards v hv
    rw [← h.offset] at hx ⊢
    exact hacts.scanned hm hu h.mem h.free hx

theorem does_contains :
    (recycling validate).Does t J (.contains w x) fun found m =>
      J m ∧ found = decide (x ∈ m.hazards w) :=
  does_read (fun m => decide (x ∈ m.hazards w)) (fun _ => trivial) fun _ => rfl

theorem keeps_hazardous {ids : List T} (hstable : (recycling validate).Stable t J)
    (hm : J m ∧ Clear t a x (· ∉ ids) m) :
    (recycling validate).Keeps t (HugeAct.hazardous x ids)
      (fun found m' => J m' ∧ Clear t a x (fun _ => found = false) m') m := by
  induction ids generalizing m with
  | nil =>
    refine keeps_pure (hstable.and stable_clear) ⟨hm.1, hm.2.mem, hm.2.free, hm.2.offset, ?_⟩
    exact fun v _ => hm.2.hazards v List.not_mem_nil
  | cons id ids ih =>
    refine keeps_access does_contains (hstable.and stable_clear) (fun found m₁ _ h₁ => ?_) hm
    obtain ⟨⟨hj, hc⟩, rfl⟩ := h₁
    refine keeps_ite (fun _ => ?_) fun hfound => ih ⟨hj, hc.mem, hc.free, hc.offset, fun v hv => ?_⟩
    · refine keeps_pure (hstable.and stable_clear) ⟨hj, hc.mem, hc.free, hc.offset, ?_⟩
      exact fun v hv => by cases hv
    · by_cases hvid : v = id
      · subst hvid
        exact fun hx => hfound (decide_eq_true hx)
      · exact hc.hazards v fun h => (List.mem_cons.mp h).elim hvid hv

theorem does_retire :
    (recycling validate).Does t
      (fun m => Scan t block safe done (a :: l) m ∧ Clear t a x (fun _ => True) m) (.retire a)
      fun _ m => Scan t block (safe.or (some a)) (done ++ [a]) l m := by
  refine does (fun _ => trivial) fun m b m' hm hj hguard h => ?_
  obtain ⟨hscan, hc⟩ := hj
  obtain ⟨-, rfl⟩ := ok_inj h
  have hclear : ∀ v, (m.desc a).offset ∉ m.hazards v := fun v => hc.offset ▸ hc.hazards v trivial
  exact ⟨hm.retire hc.mem hc.free hclear hguard, acts_retire hc.mem hc.free hclear hguard,
    (hscan.retire hm _).next_safe (by simp)⟩

/-- Where the new descriptor goes: the first `Safe` one of the list, or a new block. -/
def Spot (t : T) (out : A) (m : HugeMem T A) : Bool → Prop
  | true => ∃ pre post, m.list t = pre ++ out :: post ∧ ∀ b ∈ pre, m.InUse b
  | false => m.block t = some out

/-- Thread `t` is going to allocate into `out`. -/
structure Chosen (t : T) (out : A) (reuse : Bool) (m : HugeMem T A) : Prop where
  rested : Rested t m
  spot : Spot t out m reuse
  safe : m.Listed out → (m.desc out).state = .safe

variable {reuse : Bool}

omit [FinEnum T] [DecidableEq A] in
theorem Spot.mine (h : Spot t a m reuse) : Mine t a m := by
  cases reuse with
  | true =>
    obtain ⟨pre, post, hl, -⟩ := h
    exact .inl (by simp [hl])
  | false => exact .inr h

omit [FinEnum T] [DecidableEq A] in
theorem Spot.acts (h : Spot t a m reuse) (hm : m.Sound) (hu : u ≠ t)
    (hacts : Acts u m m') : Spot t a m' reuse := by
  have ht := hacts.other t hu.symm
  cases reuse with
  | true =>
    obtain ⟨pre, post, hl, hpre⟩ := h
    refine ⟨pre, post, ht.list.trans hl, fun b hb => ?_⟩
    exact (hacts.own_inUse hm hu (.inl (by simp [hl, hb]))).mpr (hpre b hb)
  | false => exact ht.block.trans h

omit [FinEnum T] [DecidableEq A] in
/-- Who has a descriptor on the list has it there before. -/
theorem Acts.listed_of_mine (hacts : Acts u m m') (hm' : m'.Sound) (hu : u ≠ t) (ha : Mine t a m)
    (hl : m'.Listed a) : m.Listed a := by
  rcases ha with ha | ha
  · exact ⟨t, ha⟩
  · rw [← (hacts.other t hu.symm).block] at ha
    exact absurd hl (hm'.block t a ha)

theorem stable_chosen : (recycling validate).Stable t (Chosen t a reuse : HugeMem T A → Prop) := by
  refine stable fun u m m' hu hm hm' hacts h => ⟨h.rested.acts hm hu hacts,
    h.spot.acts hm hu hacts, fun hl => ?_⟩
  have hsafe := h.safe (hacts.listed_of_mine hm' hu h.spot.mine hl)
  have hlive : ¬ m.Live a := fun hl => by
    rw [hl.1] at hsafe
    cases hsafe
  rw [(hacts.own_eq hm hu h.spot.mine hlive).1]
  exact hsafe

omit [DecidableEq A] in
theorem frame_chosen : Frame t (Chosen t a reuse : HugeMem T A → Prop) := by
  intro m hz un h
  refine ⟨h.rested, ?_, h.safe⟩
  cases reuse with
  | true => exact h.spot
  | false => exact h.spot

theorem keeps_reuseList (hm : Scan t block safe done l m) :
    (recycling validate).Keeps t (HugeAct.reuseList safe l)
      (fun r m' => Chosen t (r.getD block) r.isSome m') m := by
  induction l generalizing safe done m with
  | nil =>
    refine keeps_of_rely fun m₁ hm₁ hR => keeps_pure stable_chosen ?_
    have h := stable_scan m m₁ hm₁ hR hm
    have hlist := h.list
    rw [List.append_nil] at hlist
    cases safe with
    | none => exact ⟨h.rested, h.block, fun hl => absurd hl (hm₁.block t block h.block)⟩
    | some a =>
      obtain ⟨pre, post, hdone, hsafe, hpre⟩ := h.some a rfl
      exact ⟨h.rested, ⟨pre, post, hlist.trans hdone, hpre⟩, fun _ => hsafe⟩
  | cons a l ih =>
    refine keeps_access does_loadState stable_scan (fun s m₁ _ h₁ => ?_) hm
    obtain ⟨h₁, hs⟩ := h₁
    have ha : a ∈ m₁.list t := by simp [h₁.list]
    have hstale := h₁.rested a ha
    cases s with
    | live => exact ih (h₁.next_used ⟨by simp [← hs], hstale⟩)
    | safe => exact ih (h₁.next_safe hs.symm)
    | free =>
      have hc : Clear t a (m₁.desc a).offset (fun _ => False) m₁ :=
        ⟨ha, hs.symm, rfl, fun v hv => hv.elim⟩
      refine keeps_access does_loadRange (stable_scan.and stable_clear) (fun r m₂ _ h₂ => ?_)
        ⟨h₁, hc⟩
      obtain ⟨⟨h₂, hc₂⟩, rfl⟩ := h₂
      have hc₂ : Clear t a (m₂.desc a).offset (· ∉ FinEnum.toList T) m₂ :=
        ⟨hc₂.mem, hc₂.free, rfl, fun v hv => absurd (FinEnum.mem_toList v) hv⟩
      refine keeps_bind ((keeps_hazardous stable_scan ⟨h₂, hc₂⟩).mono fun found m₃ h₃ => ?_)
      obtain ⟨h₃, hc₃⟩ := h₃
      refine keeps_ite (fun _ => ?_) fun hfound => ?_
      · exact ih (h₃.next_used ⟨by simp [hc₃.free], h₃.rested a hc₃.mem⟩)
      · refine keeps_access does_retire (stable_scan.and stable_clear) (fun _ m₄ _ h₄ => ih h₄)
          ⟨h₃, hc₃.mem, hc₃.free, hc₃.offset, fun v _ => hc₃.hazards v ?_⟩
        exact Bool.eq_false_iff.mpr hfound

/-- `reuse` returns the first descriptor of the list that is not in use. -/
theorem keeps_reuse (hm : Rested t m ∧ m.block t = some block) :
    (recycling validate).Keeps t (HugeAct.reuse t)
      (fun r m' => Chosen t (r.getD block) r.isSome m') m := by
  have hblock : (recycling validate).Stable t fun m : HugeMem T A => m.block t = some block :=
    stable fun u m m' hu _ _ hacts h => (hacts.other t hu.symm).block.trans h
  refine keeps_access does_loadHead (stable_rested.and hblock) (fun l m₁ _ h₁ => ?_) hm
  obtain ⟨⟨hr, hb⟩, rfl⟩ := h₁
  exact keeps_reuseList ⟨hr, hb, rfl, fun _ b hb => (List.not_mem_nil hb).elim, fun a ha => by cases ha⟩

end HugeMem

end Cxlalloc
