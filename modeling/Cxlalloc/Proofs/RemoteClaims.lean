/-
Every call on a slab keeps the remote-free protocol, and what follows for every run.

A remote free knows that its block is still counted (`Freeing`) and, if it took the counter to
zero, that it is the one to claim the slab (`Last`).
-/
import Cxlalloc.Proofs.RemoteOwner
import Cxlalloc.Proofs.Memory

namespace Cxlalloc

open Lib
open Lib.Prog
open Lib.Protocol
open Function
open Relation
open Cxlalloc.Bracket

namespace SlabMem

variable {T B : Type} [Bracket B] [DecidableEq T] [DecidableEq B]
  {z : Sizing T B} {m m' : SlabMem T B} {t u : T} {b : ℕ} {cfg : Config}
  {J : SlabMem T B → Prop}

/-! ### `free_remote` -/

/-- Thread `t` frees block `b`, which is still counted. -/
structure Freeing (z : Sizing T B) (t : T) (b : ℕ) (m : SlabMem T B) : Prop where
  place : m.place b = .freeing t
  placed : t = z.owner → (m.view z).Placed z ∧ ∀ b', m.place b' ≠ .popped

/-- Thread `t` has taken the counter to zero, and these claims have been made since. -/
structure Last (t : T) (claims : List T) (m : SlabMem T B) : Prop where
  last : m.last = some t
  claims : m.claims = claims

omit [DecidableEq T] [DecidableEq B] in
theorem Freeing.ne_gone (h : Freeing z t b m) : m.place b ≠ .gone := by
  rw [h.place]
  simp

omit [DecidableEq B] in
theorem Freeing.not_closed (h : Freeing z t b m) (hm : m.Sound z) : m.closed = false := by
  refine hm.not_closed h.ne_gone ?_
  rw [h.place]
  simp

theorem stable_freeing : (freeing z).Stable t (Freeing z t b) := by
  refine stable fun u m m' hu hm _ hacts h => ⟨?_, ?_⟩
  · exact ((hacts.place b).freeing_iff hu).mpr h.place
  · rintro rfl
    obtain ⟨hplaced, hpopped⟩ := h.placed rfl
    rw [hacts.view hu (hacts.not_closed hm hu (h.not_closed hm) h.ne_gone)]
    refine ⟨hplaced, fun b' hb' => hpopped b' ?_⟩
    have hat : AtOwner z (m'.place b') := .inr (.inl hb')
    rwa [(hacts.place b').atOwner_eq hu (((hacts.place b').atOwner_iff hu).mp hat)] at hb'

omit [DecidableEq T] [DecidableEq B] in
theorem quiet_freeing : Quiet (Freeing z t b) :=
  fun _ _ _ h => { h with }

theorem stable_last {claims : List T} : (freeing z).Stable t (Last t claims) := by
  refine stable fun u m m' hu _ _ hacts h => ⟨?_, ?_⟩
  · rcases hacts.last with hsame | ⟨hnone, -⟩
    · exact hsame.trans h.last
    · rw [h.last] at hnone
      cases hnone
  · rw [hacts.claims.resolve_right fun h' => hu (Option.some.inj (h'.symm.trans h.last))]
    exact h.claims

variable {w w' : Word T Remote}

/-- The counter has been decremented for block `b`. -/
def decremented (z : Sizing T B) (t : T) (m : SlabMem T B) (b : ℕ) (w : Word T Remote) :
    SlabMem T B :=
  { m with
    remote := update m.remote z.index w
    place := update m.place b .gone
    decrements := m.decrements + 1
    last := if w.inner.free = 0 then some t else m.last }

theorem handle_casWord (hm : m.Sound z) (h : Freeing z t b m) :
    handle z t _ (.casWord (.remote z.index) w w') m =
      if m.remote z.index = w then .ok (none, m.decremented z t b w')
      else .ok (some (m.remote z.index), m) := by
  have hplace : (fun b' => if m.place b' = .freeing t then .gone else m.place b') =
      update m.place b .gone := by
    funext b'
    by_cases hb' : b' = b
    · subst hb'
      rw [update_self, if_pos h.place]
    · rw [update_of_ne hb', if_neg fun h' => hb' (hm.freeingOnce t b' b h' h.place)]
  by_cases hw : m.remote z.index = w
  · simp [handle, Mem.handle, note, Heap.word, Heap.setWord, hw, decremented, ← hplace]
  · simp [handle, Mem.handle, note, Heap.word, hw]

omit [DecidableEq B] in
theorem blocks_decremented (hb : b < count z.sizeClass) :
    (m.decremented z t b w).blocks z (· = .gone) = insert b (m.blocks z (· = .gone)) := by
  ext b'
  rw [Finset.mem_insert, mem_blocks, mem_blocks, SlabMem.decremented]
  by_cases hb' : b' = b
  · subst hb'
    simp [hb]
  · simp [hb']

omit [DecidableEq B] in
/-- Counting one block less. -/
theorem Sound.decremented (hm : m.Sound z) (h : Freeing z t b m)
    (hw : w.inner.free + 1 = (m.remote z.index).inner.free) : (m.decremented z t b w).Sound z := by
  have hlt := hm.lt_count h.ne_gone
  have hplace : ∀ {b'}, b' ≠ b → (m.decremented z t b w).place b' = m.place b' :=
    fun hb' => update_of_ne hb' _ _
  have hself : (m.decremented z t b w).place b = .gone := update_self _ _ _
  have hiff : ∀ {p : BlockState T} b', p ≠ .gone → p ≠ .freeing t →
      ((m.decremented z t b w).place b' = p ↔ m.place b' = p) := by
    intro p b' hgone hfreeing
    by_cases hb' : b' = b
    · subst hb'
      rw [hself, h.place]
      exact iff_of_false (Ne.symm hgone) (Ne.symm hfreeing)
    · rw [hplace hb']
  have hcounter : ((m.decremented z t b w).remote z.index).inner.free = w.inner.free :=
    congrArg (fun w => w.inner.free) (update_self z.index w m.remote)
  have hcount : w.inner.free + (m.decrements + 1) = count z.sizeClass := by
    have := hm.counter
    omega
  have hgone : m.decrements + 1 = ((m.decremented z t b w).blocks z (· = .gone)).card := by
    rw [blocks_decremented hlt, Finset.card_insert_of_notMem, hm.gone]
    rw [mem_blocks, h.place]
    simp
  have hout : ∀ b', count z.sizeClass ≤ b' → (m.decremented z t b w).place b' = .gone := by
    intro b' hb'
    rw [hplace (by omega)]
    exact hm.outside b' hb'
  have hzero : w.inner.free = 0 ↔ ∀ b', (m.decremented z t b w).place b' = .gone := by
    rw [← card_gone_iff hout, ← hgone]
    omega
  have hlast := hm.no_last h.ne_gone
  refine { hm with mem_bits := ?_, outside := hout, counter := ?_, gone := hgone, freeingOnce := ?_,
                   poppedOnce := ?_, last := ?_, ended := ?_, claims := ?_, closed := ?_,
                   detached := ?_ }
  · intro b'
    rw [hiff b' (by simp) (by simp)]
    exact hm.mem_bits b'
  · rw [hcounter]
    exact hcount
  · have hback : ∀ {u b'}, (m.decremented z t b w).place b' = .freeing u → m.place b' = .freeing u := by
      intro u b' hb'
      rwa [hplace fun e => by subst e; rw [hself] at hb'; cases hb'] at hb'
    exact fun u b₁ b₂ h₁ h₂ => hm.freeingOnce u b₁ b₂ (hback h₁) (hback h₂)
  · intro b₁ b₂ h₁ h₂
    rw [hiff _ (by simp) (by simp)] at h₁ h₂
    exact hm.poppedOnce b₁ b₂ h₁ h₂
  · intro u hu
    refine hzero.mp ?_
    by_contra hne
    have hu : (if w.inner.free = 0 then some t else m.last) = some u := hu
    rw [if_neg hne, hlast] at hu
    cases hu
  · intro hall
    show (if w.inner.free = 0 then some t else m.last) ≠ none
    rw [if_pos (hzero.mpr hall)]
    simp
  · exact .inl (hm.no_claims hlast)
  · intro hclosed
    have hclosed : m.closed = true := hclosed
    rw [h.not_closed hm] at hclosed
    cases hclosed
  · -- the owner puts the slab away before it frees a block remotely
    intro hclosed hnone
    by_cases ht : t = z.owner
    · refine (h.placed ht).1.off (Finset.eq_empty_of_forall_notMem fun b' hb' => hnone b' (.inl ?_))
      rw [hiff b' (by simp) (by simp)]
      exact (hm.mem_bits b').mp hb'
    · refine hm.detached hclosed fun b' hat => ?_
      refine hnone b' ?_
      rwa [hplace]
      rintro rfl
      rw [h.place] at hat
      simp [AtOwner, ht] at hat

omit [DecidableEq B] in
theorem acts_decremented (hm : m.Sound z) (h : Freeing z t b m) :
    Acts z t m (m.decremented z t b w) where
  place b' := by
    by_cases hb' : b' = b
    · subst hb'
      rw [h.place, show (m.decremented z t b' w).place b' = .gone from update_self _ _ _]
      exact .decrement
    · rw [show (m.decremented z t b w).place b' = m.place b' from update_of_ne hb' _ _]
      exact .stay _
  last := by
    by_cases hw : w.inner.free = 0
    · exact .inr ⟨hm.no_last h.ne_gone, if_pos hw⟩
    · exact .inl (if_neg hw)
  claims := .inl rfl
  closed hclosed := hclosed
  ends hclosed hclosed' := by
    have hclosed' : m.closed = true := hclosed'
    rw [hclosed] at hclosed'
    cases hclosed'
  view _ _ := rfl

/-- What a thread knows after its remote free. -/
def Freed (z : Sizing T B) (t : T) (rem : Remote) (m : SlabMem T B) : Prop :=
  if rem.free = 1 then Last t [] m else Rest z t m

theorem stable_freed {rem : Remote} : (freeing z).Stable t (Freed z t rem) := by
  unfold Freed
  split
  · exact stable_last
  · exact stable_rest

omit [DecidableEq B] in
theorem Freeing.freed (h : Freeing z t b m) (hm : m.Sound z)
    (hw : w.inner.free + 1 = (m.remote z.index).inner.free) :
    Freed z t (m.remote z.index).inner (m.decremented z t b w) := by
  have hlast := hm.no_last h.ne_gone
  unfold Freed
  split
  · refine ⟨if_pos (by omega), hm.no_claims hlast⟩
  · refine ⟨fun b' hb' => ?_, fun ht b' hb' => ?_, fun ht => ?_, fun ht _ => (h.placed ht).1⟩
    · by_cases hb : b' = b
      · subst hb
        rw [show (m.decremented z t b' w).place b' = .gone from update_self _ _ _] at hb'
        cases hb'
      · rw [show (m.decremented z t b w).place b' = m.place b' from update_of_ne hb _ _] at hb'
        exact hb (hm.freeingOnce t b' b hb' h.place)
    · by_cases hb : b' = b
      · subst hb
        rw [show (m.decremented z t b' w).place b' = .gone from update_self _ _ _] at hb'
        cases hb'
      · rw [show (m.decremented z t b w).place b' = m.place b' from update_of_ne hb _ _] at hb'
        exact (h.placed ht).2 b' hb'
    · have ht : (if w.inner.free = 0 then some t else m.last) = some t := ht
      rw [if_neg (by omega), hlast] at ht
      cases ht

/-- The compare-exchange of a remote free. -/
theorem does_casWord (hw : w'.inner.free + 1 = w.inner.free) :
    (freeing z).Does t (Freeing z t b) (.casWord (.remote z.index) w w') fun r m =>
      (r = none → Freed z t w.inner m) ∧
      ∀ w₁, r = some w₁ → Freeing z t b m ∧ 0 < w₁.inner.free := by
  refine does (fun m _ _ => ⟨rfl, by omega, hw⟩) fun m r m' hm h ha => ?_
  rw [handle_casWord hm h] at ha
  split_ifs at ha with hword
  · obtain ⟨rfl, rfl⟩ := ok_inj ha
    subst hword
    exact ⟨hm.decremented h hw, acts_decremented hm h, fun _ => h.freed hm hw, fun _ h => by cases h⟩
  · obtain ⟨rfl, rfl⟩ := ok_inj ha
    refine ⟨hm, .refl z t m, fun h => (by cases h), fun w₁ h₁ => ?_⟩
    obtain rfl := Option.some.inj h₁
    exact ⟨h, hm.free_pos h.ne_gone⟩

/-- What a remote free wants to write. -/
theorem keeps_next {rem : Remote} {version : Version} (hrem : 0 < rem.free) (hm : Freeing z t b m) :
    (freeing z).Keeps t
      (do
        if cfg.validate && rem.free == 0 then panic .remoteExhausted
        let next ← checkedSub rem.free 1
        pure (some ((⟨next⟩ : Remote), HeapState.remote z.index version (rem.free == 1))))
      (fun r m' => ∃ p, r = some p ∧ Freeing z t b m' ∧ p.1.free + 1 = rem.free) m := by
  have hzero : (rem.free == 0) = false := by
    rw [beq_eq_false_iff_ne]
    omega
  rw [hzero, Bool.and_false, if_neg (by simp), checkedSub, if_pos (Nat.succ_le_of_lt hrem)]
  refine keeps_pure (fun m m' hI hR h => ?_) ⟨_, rfl, hm, Nat.sub_add_cancel hrem⟩
  obtain ⟨p, hp, hfreeing, heq⟩ := h
  exact ⟨p, hp, stable_freeing m m' hI hR hfreeing, heq⟩

theorem stable_freeing_and {p : Prop} : (freeing z).Stable t fun m => Freeing z t b m ∧ p :=
  fun m m' hI hR h => ⟨stable_freeing m m' hI hR h.1, h.2⟩

/-- One round of the loop: the word that was read is not zero, as the block is still counted. -/
theorem round_freeRemote {version : Version} :
    Detectable.Round (freeing z) t (.remote z.index) version
      (fun rem version => do
        if cfg.validate && rem.free == 0 then panic .remoteExhausted
        let next ← checkedSub rem.free 1
        pure (some (⟨next⟩, .remote z.index version (rem.free == 1))))
      (fun w m => Freeing z t b m ∧ 0 < w.inner.free)
      (fun w m => Freeing z t b m ∧ 0 < w.inner.free)
      (fun w p m => Freeing z t b m ∧ p.1.free + 1 = w.inner.free)
      (fun w p m => Freeing z t b m ∧ p.1.free + 1 = w.inner.free)
      (fun r m => ∃ rem, r = some rem ∧ Freed z t rem m) where
  stable_seen _ := stable_freeing_and
  stable_helped _ := stable_freeing_and
  stable_ready _ _ := stable_freeing_and
  stable_tried _ _ := stable_freeing_and
  stable_return _ := by
    rintro m m' hI hR ⟨rem, hr, h⟩
    exact ⟨rem, hr, stable_freed m m' hI hR h⟩
  panic _ _ _ _ := .inr rfl
  help _ _ _ h := keeps_help stable_freeing_and
    (fun m help log h => ⟨quiet_freeing m help log h.1, h.2⟩) h
  next w m _ h := by
    refine (keeps_next h.2 h.1).mono fun r m' hr => ?_
    obtain ⟨p, rfl, hfreeing, hp⟩ := hr
    refine ⟨fun h => (by cases h), fun p' hp' => ?_⟩
    obtain rfl := Option.some.inj hp'
    exact ⟨hfreeing, hp⟩
  log _ _ := does_storeLog fun m help log h => ⟨quiet_freeing m help log h.1, h.2⟩
  cas w p := by
    intro m hm h
    refine (does_casWord h.2).mono (fun _ h => h) (fun r m' hr => ?_) m hm h.1
    exact ⟨fun hnone => ⟨w.inner, rfl, hr.1 hnone⟩, hr.2⟩

theorem does_loadHelp : (freeing z).Does t J (.loadHelp t u) fun _ => J := by
  have hread : (freeing z).Does t J (.loadHelp t u) fun v m => J m ∧ v = m.help t u :=
    does_read (fun m => m.help t u) (fun _ => trivial) fun _ => rfl
  exact hread.mono (fun _ h => h) fun _ _ h => h.1

theorem does_loadCounter :
    (freeing z).Does t (Freeing z t b) (.loadWord (.remote z.index)) fun w m =>
      Freeing z t b m ∧ 0 < w.inner.free := by
  refine does (fun _ _ _ => trivial) fun m w m' hm h ha => ?_
  obtain ⟨rfl, rfl⟩ := ok_inj ha
  exact ⟨hm, .refl z t m, h, hm.free_pos h.ne_gone⟩

/-! ### `claim` -/

theorem handle_steal : handle z t Unit (.storeOwner z.index (some u)) m = .ok ((), { m with
    owner := update m.owner z.index (some u)
    lastOwner := update m.lastOwner z.index (some u)
    closed := true }) := by
  simp [handle, Mem.handle, note]

theorem does_steal :
    (freeing z).Does t (Last t [t]) (.storeOwner z.index (some t)) fun _ => Tail z t := by
  refine does_write _ (fun _ _ _ => trivial) (fun _ => handle_steal) fun m hm h => ?_
  have hclaims : m.claims ≠ [] := by
    rw [h.claims]
    simp
  refine ⟨{ hm with closed := fun _ => .inl hclaims, view := fun h => (by cases h),
                    detached := fun h => (by cases h) }, ?_, rfl, .inr h.claims, fun b => ?_,
    fun _ b => ?_, fun _ => h.claims⟩
  · exact { Acts.refl z t m with closed := fun _ => rfl, ends := fun _ _ => .inr h.last,
                                 view := fun _ h => by cases h }
  · show m.place b ≠ _
    rw [hm.last t h.last b]
    simp
  · show m.place b ≠ _
    rw [hm.last t h.last b]
    simp

section Free

variable [LawfulBracket B]

/-- The first claim, by the thread that freed the last block. -/
theorem does_claim {c : B} :
    (freeing z).Does t (Last t []) (.record t (.claim c)) fun _ => Last t [t] := by
  refine does_write (fun m => { m with claims := t :: m.claims }) (fun m hm h => ?_) (fun _ => rfl)
    fun m hm h => ⟨{ hm with claims := ?_, closed := ?_ }, ?_, h.last, ?_⟩
  · have hclosed := hm.not_closed_of_last h.last h.claims
    have hgone := hm.last t h.last
    refine ⟨h.claims, ?_, ?_, fun s => ?_⟩
    · rw [hm.gone]
      exact (card_gone_iff hm.outside).mpr hgone
    · rw [BitSet.isEmpty_iff hm.valid]
      refine Finset.eq_empty_of_forall_notMem fun b hb => ?_
      rw [hm.mem_bits, hgone] at hb
      cases hb
    · by_cases hs : s = .sized z.owner z.sizeClass
      · rw [hs]
        exact hm.detached hclosed fun b => by simp [hgone b, AtOwner]
      · exact (hm.view hclosed).others s hs
  · exact .inr ⟨t, h.last, congrArg (t :: ·) h.claims⟩
  · exact fun _ => .inl (List.cons_ne_nil _ _)
  · exact { Acts.refl z t m with claims := .inr h.last }
  · exact congrArg (t :: ·) h.claims

/-- `Heap::claim`. -/
theorem keeps_claim {c : B} (hm : Last t [] m) :
    (freeing z).Keeps t (Heap.claim cfg t c z.index) (fun _ => Rest z t) m := by
  refine keeps_access does_claim stable_last (fun _ m₁ _ h₁ => ?_) hm
  refine keeps_access does_steal stable_last (fun _ m₂ _ h₂ => ?_) h₁
  refine keeps_done ?_ h₂
  exact .bind (Stack.by_push rfl) fun _ => .bind Heap.by_validateOwned fun _ =>
    Heap.by_unsizedToGlobal (fun c => by simp) fun _ => trivial

/-- `Heap::free_remote`. -/
theorem keeps_freeRemote (hm : Freeing z t b m) :
    (freeing z).Keeps t (Heap.freeRemote cfg t z.index) (fun _ => Rest z t) m := by
  refine keeps_access does_loadClass stable_freeing (fun c m₁ _ h₁ => ?_) hm
  refine keeps_access (does_record fun c => by simp) stable_freeing (fun _ m₂ _ h₂ => ?_) h₁.1
  refine keeps_bind ((Detectable.keeps_update stable_freeing (fun _ => stable_freeing)
    (fun _ => stable_freeing) does_loadHelp (fun _ => does_storeHelp quiet_freeing)
    (fun _ => does_loadCounter) (fun _ => round_freeRemote) h₂).mono fun r m₃ h₃ => ?_)
  obtain ⟨rem, rfl, h₃⟩ := h₃
  refine keeps_ite (fun hrem => ?_) fun hrem => ?_
  · rw [Freed, if_pos hrem] at h₃
    exact keeps_claim h₃
  · rw [Freed, if_neg hrem] at h₃
    exact keeps_pure stable_rest h₃

/-! ### `free` -/

/-- `Heap::free` of a block, by its owner or by anybody else. -/
theorem keeps_free {block : Bit} (hb : block.toNat < count z.sizeClass)
    (hm : Freeing z t block.toNat m) :
    (freeing z).Keeps t (Heap.free cfg t (Offset.fromBlock z.sizeClass z.index block))
      (fun _ => Rest z t) m := by
  rw [Heap.free, Offset.intoIndex_fromBlock z.bound z.nonzero hb]
  refine keeps_access does_loadOwner stable_freeing (fun owner m₁ hm₁ h₁ => ?_) hm
  obtain ⟨h₁, rfl⟩ := h₁
  have hm₁ : m₁.Sound z := hm₁
  refine keeps_ite (fun _ => keeps_freeRemote h₁) fun hself => ?_
  have hself : m₁.owner z.index = some t := not_not.mp hself
  have hclosed := h₁.not_closed hm₁
  -- nobody else owns the slab
  obtain rfl : t = z.owner := by
    rcases (hm₁.view hclosed).owner with howner | ⟨hnone, -⟩
    · exact Option.some.inj (hself.symm.trans howner)
    · have hnone : m₁.owner z.index = none := hnone
      rw [hself] at hnone
      cases hnone
  obtain ⟨hplaced, hpopped⟩ := h₁.placed rfl
  refine keeps_freeLocal hb (v := m₁.view z) hself hplaced
    ⟨.inr (.inr rfl), hclosed, h₁.place, fun b' hb' => ?_, rfl⟩
  rcases hb' with hb' | hb'
  · exact absurd hb' (hpopped b')
  · exact hm₁.freeingOnce z.owner b' _ hb' h₁.place

end Free

/-! ### The calls -/

section Calls

variable {place : ℕ → BlockState T}

omit [DecidableEq B] in
/-- Blocks outside the bitset change places. -/
theorem Sound.move (hm : m.Sound z) (hgone : ∀ b, place b = .gone ↔ m.place b = .gone)
    (hfree : ∀ b, place b = .free ↔ m.place b = .free)
    (hfreeing : ∀ t b b', place b = .freeing t → place b' = .freeing t → b = b')
    (hpopped : ∀ b b', place b = .popped → place b' = .popped → b = b')
    (hdetached : m.closed = false → (∀ b, ¬ AtOwner z (place b)) →
      ¬ Reaches m.next (m.head (.sized z.owner z.sizeClass)) z.index) :
    ({ m with place := place } : SlabMem T B).Sound z where
  sizeClass := hm.sizeClass
  valid := hm.valid
  mem_bits b := (hm.mem_bits b).trans (hfree b).symm
  outside b hb := (hgone b).mpr (hm.outside b hb)
  counter := hm.counter
  gone := hm.gone.trans (congrArg Finset.card (blocks_gone_congr hgone).symm)
  freeingOnce := hfreeing
  poppedOnce := hpopped
  last t ht b := (hgone b).mpr (hm.last t ht b)
  ended hall := hm.ended fun b => (hgone b).mp (hall b)
  claims := hm.claims
  closed hclosed := (hm.closed hclosed).imp_right fun h b hb => (hfree b).mpr (h b hb)
  view := hm.view
  detached := hdetached

omit [DecidableEq B] in
/-- The application gets the block that was taken out. -/
theorem Popped.hand (h : Popped z b m) (hm : m.Sound z) :
    ({ m with place := update m.place b .live } : SlabMem T B).Sound z ∧
      Acts z z.owner m { m with place := update m.place b .live } ∧
      Rest z z.owner { m with place := update m.place b .live } := by
  obtain ⟨v, hplaced, h⟩ := h
  have hne : ∀ {p : BlockState T} b', p ≠ .live → update m.place b .live b' = p →
      b' ≠ b ∧ m.place b' = p := by
    intro p b' hp hb'
    by_cases heq : b' = b
    · rw [heq, update_self] at hb'
      exact absurd hb'.symm hp
    · exact ⟨heq, by rwa [update_of_ne heq] at hb'⟩
  have hiff : ∀ {p : BlockState T} b', p ≠ .popped → p ≠ .live →
      (update m.place b .live b' = p ↔ m.place b' = p) := by
    intro p b' hpopped hlive
    refine ⟨fun hb' => (hne b' hlive hb').2, fun hb' => ?_⟩
    rwa [update_of_ne]
    rintro rfl
    exact hpopped (hb'.symm.trans h.place)
  have hpopped : ∀ b', update m.place b .live b' ≠ .popped := fun b' hb' => by
    obtain ⟨heq, hb'⟩ := hne b' (by simp) hb'
    exact heq (h.alone b' (.inl hb'))
  have hfreeing : ∀ b', update m.place b .live b' ≠ .freeing z.owner := fun b' hb' => by
    obtain ⟨heq, hb'⟩ := hne b' (by simp) hb'
    exact heq (h.alone b' (.inr hb'))
  have hview : (m.view z).Placed z := by rwa [h.view]
  refine ⟨?_, { Acts.refl z z.owner m with place := fun b' => ?_ }, hfreeing, fun _ => hpopped,
    fun hlast => ?_, fun _ _ => hview⟩
  · refine hm.move (fun b => hiff b (by simp) (by simp)) (fun b => hiff b (by simp) (by simp))
      (fun t b₁ b₂ h₁ h₂ => ?_) (fun b' _ hb' => absurd hb' (hpopped b')) fun _ hnone => ?_
    · exact hm.freeingOnce t b₁ b₂ ((hiff b₁ (by simp) (by simp)).mp h₁)
        ((hiff b₂ (by simp) (by simp)).mp h₂)
    · refine hview.off (Finset.eq_empty_of_forall_notMem fun b' hb' => hnone b' (.inl ?_))
      exact (hiff b' (by simp) (by simp)).mpr ((hm.mem_bits b').mp hb')
  · by_cases hb' : b' = b
    · subst hb'
      show Moves z z.owner (m.place b') (update m.place b' .live b')
      rw [update_self, h.place]
      exact .handOut rfl
    · show Moves z z.owner (m.place b') (update m.place b .live b')
      rw [update_of_ne hb']
      exact .stay _
  · rw [show m.last = none from hm.no_last h.ne_gone] at hlast
    cases hlast

omit [DecidableEq B] in
/-- The application gives a block back. -/
theorem Sound.giveBack (hm : m.Sound z) (hrest : Rest z t m) (hlive : m.place b = .live) :
    ({ m with place := update m.place b (.freeing t) } : SlabMem T B).Sound z := by
  have hiff : ∀ {p : BlockState T} b', p ≠ .live → p ≠ .freeing t →
      (update m.place b (.freeing t) b' = p ↔ m.place b' = p) := by
    intro p b' hp hp'
    by_cases hb' : b' = b
    · subst hb'
      rw [update_self, hlive]
      exact iff_of_false (Ne.symm hp') (Ne.symm hp)
    · rw [update_of_ne hb']
  have hself : ∀ b', update m.place b (.freeing t) b' = .freeing t → b' = b := by
    intro b' hb'
    by_contra hne
    rw [update_of_ne hne] at hb'
    exact hrest.freeing b' hb'
  refine hm.move (fun b => hiff b (by simp) (by simp)) (fun b => hiff b (by simp) (by simp))
    (fun u b₁ b₂ h₁ h₂ => ?_) (fun b₁ b₂ h₁ h₂ => ?_) fun hclosed hnone => ?_
  · by_cases hu : u = t
    · subst hu
      exact (hself b₁ h₁).trans (hself b₂ h₂).symm
    · rw [hiff _ (by simp) (by simp [hu])] at h₁ h₂
      exact hm.freeingOnce u b₁ b₂ h₁ h₂
  · rw [hiff _ (by simp) (by simp)] at h₁ h₂
    exact hm.poppedOnce b₁ b₂ h₁ h₂
  · refine hm.detached hclosed fun b' hat => ?_
    have hb' : b' ≠ b := by
      rintro rfl
      rw [hlive] at hat
      simp [AtOwner] at hat
    have hnot := hnone b'
    rw [update_of_ne hb'] at hnot
    exact hnot hat

/-- What a thread makes sure of, also when a block goes to the application: it is the one that
was popped. -/
def AllowedHand (z : Sizing T B) : Guard T (HeapAct T B) (SlabMem T B) :=
  fun t _ act m =>
    match act with
    | .heap act => Allowed z t _ act m
    | .hand offset _ => t = z.owner ∧ ∃ block : Bit, m.place block.toNat = .popped ∧
        offset = Offset.fromBlock z.sizeClass z.index block

/-- How threads allocate the blocks of a slab and free them. -/
def handing (cfg : Config) (z : Sizing T B) : Protocol (system cfg z) Guard.any :=
  ofSteps _ _ (Sound z) (Acts z) (AllowedHand z) (Rest z) (Acts.refl z)

/-- What keeps the protocol of the accesses keeps the protocol of the calls. -/
theorem keeps_heap {α : Type} {p : HeapCode T B α} {Q : α → SlabMem T B → Prop}
    (hp : (freeing z).Keeps t p Q m) : (handing cfg z).Keeps t (p.hoist fun _ => .heap) Q m :=
  hp.hoist rfl rfl rfl (fun _ _ _ h => h) (fun _ _ _ h => h) fun _ _ _ => rfl

/-- The last step of an allocation. -/
theorem keeps_hand [LawfulBracket B] {block : Bit} (hb : block.toNat < count z.sizeClass)
    (hm : Popped z block.toNat m) : (handing cfg z).Keeps z.owner
      (lift (.hand (Offset.fromBlock z.sizeClass z.index block) z.sizeClass))
      (fun _ => Rest z z.owner) m := by
  refine keeps_lift (J := Popped z block.toNat) (fun m hm h => ⟨⟨rfl, block, ?_, rfl⟩,
    fun _ _ m' hact => ?_⟩) stable_popped (fun _ => stable_rest) hm
  · obtain ⟨v, -, h⟩ := h
    exact h.place
  · have hact : (.ok ((), m.handOut z _) : Except Panic _) = .ok (_, m') := hact
    obtain ⟨-, rfl⟩ := ok_inj hact
    rw [handOut, Offset.intoIndex_fromBlock z.bound z.nonzero hb,
      Offset.intoBlock_fromBlock z.nonzero hb]
    dsimp only
    rw [if_pos rfl]
    exact h.hand hm

/-- Every call keeps the protocol. -/
theorem calls [LawfulBracket B] : (handing cfg z).Calls := by
  intro t call m hm hrest hlegal
  have hm : m.Sound z := hm
  have hrest : Rest z t m := hrest
  cases call with
  | allocate =>
    obtain ⟨rfl, hclosed, hhead⟩ := hlegal
    have hplaced := hrest.placed rfl hclosed
    -- the slab is on the stack, so it has a free block
    have hne : (m.bits z.index).elems.Nonempty := by
      rw [Finset.nonempty_iff_ne_empty]
      intro hempty
      refine hplaced.off hempty ⟨[], ?_⟩
      exact hhead
    obtain ⟨b, hb⟩ := hne
    have hheld : Held z .free b (m.view z) m := by
      refine ⟨.inl rfl, hclosed, (hm.mem_bits b).mp hb, fun b' hb' => ?_, rfl⟩
      rcases hb' with hb' | hb'
      · exact absurd hb' (hrest.popped rfl b')
      · exact absurd hb' (hrest.freeing b')
    refine ⟨hm, .refl z z.owner m, ?_⟩
    have hne : (m.view z).bits.elems.Nonempty := ⟨b, hb⟩
    refine keeps_bind (Keeps.mono (keeps_heap (keeps_allocateBlock hne hplaced hheld)) ?_)
    rintro r m' ⟨block, hlt, rfl, h⟩
    exact keeps_hand hlt h
  | free block =>
    obtain ⟨hcount, hlive⟩ := hlegal
    refine ⟨hm.giveBack hrest hlive, { Acts.refl z t m with place := fun b => ?_ },
      keeps_heap (keeps_free hcount ⟨update_self _ _ _, fun ht => ⟨?_, fun b hb => ?_⟩⟩)⟩
    · by_cases hb : b = block.toNat
      · subst hb
        show Moves z t (m.place block.toNat) (update m.place block.toNat (.freeing t) block.toNat)
        rw [update_self, hlive]
        exact .call
      · show Moves z t (m.place b) (update m.place block.toNat (.freeing t) b)
        rw [update_of_ne hb]
        exact .stay _
    · refine hrest.placed ht (hm.not_closed (b := block.toNat) ?_ ?_)
      · rw [hlive]
        simp
      · rw [hlive]
        simp
    · have hb : update m.place block.toNat (.freeing t) b = .popped := hb
      by_cases hne : b = block.toNat
      · subst hne
        rw [update_self] at hb
        cases hb
      · rw [update_of_ne hne] at hb
        exact hrest.popped ht b hb

end Calls

/-! ### Sizing the slab -/

/-- The slab is on top of its owner's unsized stack, and on no other. -/
structure Unsized (z : Sizing T B) (m : Mem T B (HeapState B)) : Prop where
  head : m.head (.unsized z.owner) = some z.index
  owner : m.owner z.index = some z.owner
  once : ¬ Reaches m.next (m.next z.index) z.index
  others : ∀ s, s ≠ .unsized z.owner → ¬ Reaches m.next (m.head s) z.index

/-- The slab has just been sized, and nobody has done anything yet. -/
structure Fresh (z : Sizing T B) (m : SlabMem T B) : Prop where
  sound : m.Sound z
  rest : ∀ t, Rest z t m

/-- What `Owned::unsized_to_sized` makes of the heap. -/
theorem fresh_sized [LawfulBracket B] {m₀ m : Mem T B (HeapState B)} (h : Unsized z m₀)
    (hclass : m.sizeClass z.index = z.sizeClass)
    (hbits : m.bits z.index = (m₀.bits z.index).fill (count z.sizeClass))
    (hremote : (m.remote z.index).inner.free = count z.sizeClass)
    (howner : m.owner = m₀.owner) (hnext : m.next = update m₀.next z.index (m₀.head (stack z)))
    (hhead : m.head = update (update m₀.head (stack z) (some z.index)) (.unsized z.owner)
      (m₀.next z.index))
    (hlen : 0 < m.len (stack z)) : Fresh z (sized z m) := by
  have hfree : ∀ b < count z.sizeClass, (sized z m).place b = .free := fun b hb => if_pos hb
  have hgone : ∀ b, count z.sizeClass ≤ b → (sized z m).place b = .gone :=
    fun b hb => if_neg (by omega)
  have hplace : ∀ b, (sized z m).place b = .free ∨ (sized z m).place b = .gone := by
    intro b
    rcases Nat.lt_or_ge b (count z.sizeClass) with hb | hb
    · exact .inl (hfree b hb)
    · exact .inr (hgone b hb)
  have helems : (m.bits z.index).elems = Finset.range (count z.sizeClass) := by
    rw [hbits, BitSet.elems_fill (LawfulBracket.count_le _)]
  have hpos := LawfulBracket.count_pos z.sizeClass z.nonzero
  have hzero := hfree 0 hpos
  have hoff : ¬ Reaches m.next (m₀.head (stack z)) z.index := by
    rw [hnext]
    exact fun hr => h.others _ (by simp) hr.of_update
  have hstack : m.head (stack z) = some z.index := by
    rw [hhead, update_of_ne (by simp), update_self]
  refine ⟨⟨hclass, ?_, ?_, hgone, ?_, ?_, ?_, ?_, ?_, ?_, .inl rfl, ?_, ?_, ?_⟩, ?_⟩
  · show (m.bits z.index).validate = true
    rw [hbits]
    exact BitSet.validate_fill LawfulBracket.rows_le (LawfulBracket.count_le _)
  · intro b
    show b ∈ (m.bits z.index).elems ↔ _
    rw [helems, Finset.mem_range]
    refine ⟨hfree b, fun hb => Nat.lt_of_not_le fun hle => ?_⟩
    rw [hgone b hle] at hb
    cases hb
  · exact hremote
  · refine (Finset.card_eq_zero.mpr (Finset.eq_empty_of_forall_notMem fun b hb => ?_)).symm
    obtain ⟨hlt, hb⟩ := mem_blocks.mp hb
    rw [hfree b hlt] at hb
    simp at hb
  · intro t b b' hb
    rcases hplace b with hb' | hb' <;> rw [hb'] at hb <;> cases hb
  · intro b b' hb
    rcases hplace b with hb' | hb' <;> rw [hb'] at hb <;> cases hb
  · exact fun t ht => by cases ht
  · intro hall
    rw [hall 0] at hzero
    cases hzero
  · exact fun h => by cases h
  · intro _
    refine ⟨.inl ?_, fun s hs => ?_⟩
    · show m.owner z.index = _
      rw [howner]
      exact h.owner
    · show ¬ Reaches m.next (m.head s) z.index
      rw [hnext, hhead]
      intro hr
      by_cases hs' : s = .unsized z.owner
      · subst hs'
        rw [update_self] at hr
        exact h.once hr.of_update
      · rw [update_of_ne hs', update_of_ne hs] at hr
        exact h.others s hs' hr.of_update
  · exact fun _ hnone => absurd (.inl hzero) (hnone 0)
  · refine fun t => ⟨fun b hb => ?_, fun _ b hb => ?_, fun ht => (by cases ht), fun _ _ =>
      ⟨fun _ => ⟨hstack, ?_, hlen⟩, fun hempty => ?_⟩⟩
    · rcases hplace b with hb' | hb' <;> rw [hb'] at hb <;> cases hb
    · rcases hplace b with hb' | hb' <;> rw [hb'] at hb <;> cases hb
    · show ¬ Reaches m.next (m.next z.index) z.index
      rwa [show m.next z.index = m₀.head (stack z) by rw [hnext, update_self]]
    · have hempty : (m.bits z.index).elems = ∅ := hempty
      rw [helems, Finset.range_eq_empty_iff] at hempty
      omega

/-- `Owned::unsized_to_sized` starts the protocol. -/
theorem fresh_unsizedToSized [LawfulBracket B] {m₀ m : Mem T B (HeapState B)} (h : Unsized z m₀)
    (hsized : (Heap.unsizedToSized z.owner z.sizeClass).exec Mem.handle m₀ = .ok (true, m)) :
    Fresh z (sized z m) := by
  have hwp : wp Mem.handle (Heap.unsizedToSized z.owner z.sizeClass)
      (fun _ m => Fresh z (sized z m)) (fun _ => True) m₀ := by
    simp only [Heap.unsizedToSized, wp_bind, Stack.wp_peek, h.head, wp_loadNext, Heap.log,
      wp_storeLog, wp_storeClass, wp_loadBits, wp_storeBits, Stack.wp_push, wp_store, wp_loadLen]
    rw [checkedSub]
    split
    · simp only [wp_pure, Stack.wp_set]
      refine fresh_sized h ?_ ?_ ?_ rfl rfl rfl ?_
      · exact update_self _ _ _
      · exact update_self _ _ _
      · exact congrArg (fun w => w.inner.free) (update_self z.index _ m₀.remote)
      · simp [Heap.setWord, stack]
    · trivial
  have hfresh := wp_ok hwp hsized
  exact hfresh

/-! ### Every run -/

/-- The block is with the application, or its free has not taken effect yet. -/
def Out : BlockState T → Bool
  | .live => true
  | .freeing _ => true
  | _ => false

/-- What the remote-free protocol guarantees of a state. -/
structure Balanced (z : Sizing T B) (w : Pool T (HeapAct T B) (SlabMem T B)) : Prop where
  /-- The counter is short of the block count by the decrements. -/
  counter : (w.mem.remote z.index).inner.free + w.mem.decrements = count z.sizeClass
  /-- Every block is free, popped, out, or freed remotely. -/
  blocks : (w.mem.bits z.index).len + (w.mem.blocks z Out).card + w.mem.decrements +
    (w.mem.blocks z (· = .popped)).card = count z.sizeClass
  popped : (w.mem.blocks z (· = .popped)).card ≤ 1
  /-- At most one thread claims the slab, once all blocks are freed remotely. -/
  claims : w.mem.claims.length ≤ 1
  claimed : w.mem.claims ≠ [] → w.mem.decrements = count z.sizeClass
  /-- The thread that frees the last block claims the slab in that call. -/
  ended : w.mem.decrements = count z.sizeClass →
    ∃ t, w.mem.last = some t ∧ (w.prog t = .ret () → w.mem.claims = [t])
  /-- The next access of every thread is allowed. -/
  next : ∀ t β (act : HeapAct T B β) k, w.prog t = .step act k → AllowedHand z t β act w.mem

omit [DecidableEq B] in
/-- The blocks of a slab, by where they are. -/
theorem Sound.blocks_eq (hm : m.Sound z) :
    (m.bits z.index).len + (m.blocks z Out).card + m.decrements +
      (m.blocks z (· = .popped)).card = count z.sizeClass := by
  have hbits : (m.bits z.index).elems = m.blocks z (· = .free) := by
    ext b
    rw [hm.mem_bits, mem_blocks, decide_eq_true_eq]
    refine ⟨fun hb => ⟨hm.lt_count ?_, hb⟩, And.right⟩
    rw [hb]
    simp
  rw [BitSet.len_eq_card hm.valid, hbits, hm.gone]
  simp only [blocks, Finset.card_filter, ← Finset.sum_add_distrib]
  -- every block is in exactly one place
  have hone : ∀ b ∈ Finset.range (count z.sizeClass),
      (if decide (m.place b = .free) = true then 1 else 0) + (if Out (m.place b) = true then 1 else 0) +
        (if decide (m.place b = .gone) = true then 1 else 0) +
        (if decide (m.place b = .popped) = true then 1 else 0) = 1 := by
    intro b _
    cases m.place b <;> simp [Out]
  rw [Finset.sum_congr rfl hone, Finset.sum_const, Finset.card_range, smul_eq_mul, mul_one]

/-- Size a slab, and let threads allocate from it and free its blocks, each once: in every state
the counter and the blocks add up, only the thread that frees the last block claims the slab,
it finds the bitset empty and the slab on no stack, and nobody disowns the slab after that. -/
theorem remote_frees_balanced [LawfulBracket B] {m₀ m : Mem T B (HeapState B)} (hunsized : Unsized z m₀)
    (hsized : (Heap.unsizedToSized z.owner z.sizeClass).exec Mem.handle m₀ = .ok (true, m))
    {w : Pool T (HeapAct T B) (SlabMem T B)}
    (hrun : ReflTransGen (Pool.Steps (system cfg z) Guard.any) (Pool.idle (sized z m)) w) :
    Balanced z w := by
  have hfresh := fresh_unsizedToSized hunsized hsized
  have hidle : (handing cfg z).Good (Pool.idle (sized z m)) :=
    good_idle hfresh.sound fun t m' hm' hR => stable_rest _ m' hm' hR (hfresh.rest t)
  have hgood := run calls hidle hrun
  have hm : w.mem.Sound z := hgood.inv
  have hall : w.mem.decrements = count z.sizeClass ↔ ∀ b, w.mem.place b = .gone := by
    rw [hm.gone, card_gone_iff hm.outside]
  refine ⟨hm.counter, hm.blocks_eq, ?_, ?_, fun hclaims => ?_, fun hcount => ?_,
    fun t β act k hprog => hgood.needs trivial hprog⟩
  · rw [Finset.card_le_one]
    intro b hb b' hb'
    rw [mem_blocks, decide_eq_true_eq] at hb hb'
    exact hm.poppedOnce b b' hb.2 hb'.2
  · rcases hm.claims with h | ⟨t, -, h⟩ <;> rw [h] <;> simp
  · obtain ⟨t, hlast, -⟩ := hm.claims.resolve_left hclaims
    exact hall.mpr (hm.last t hlast)
  · obtain ⟨t, hlast⟩ := Option.ne_none_iff_exists'.mp (hm.ended (hall.mp hcount))
    refine ⟨t, hlast, fun hret => ?_⟩
    have hrest := hgood.keeps t trivial
    rw [hret] at hrest
    exact (hrest w.mem hgood.inv ((handing cfg z).rely_refl t w.mem)).claimed hlast

/-- Thread 0 owns slab 1, and sizes it for one block of 512 KiB. -/
def oneBlock : Sizing (Fin 2) Large :=
  { owner := 0, sizeClass := ⟨9⟩, index := .min, nonzero := rfl, bound := by decide }

/-- Slab 1 is all there is. -/
def oneSlab : Mem (Fin 2) Large (HeapState Large) :=
  { (Heap.zeroed : Heap (Fin 2) Large) with
    head := fun s => if s = .unsized 0 then some .min else none
    len := fun s => if s = .unsized 0 then 1 else 0
    owner := fun _ => some 0
    help := fun _ _ => 0
    log := fun _ => none }

theorem unsized_oneSlab : Unsized oneBlock oneSlab where
  head := rfl
  owner := rfl
  once := Lib.not_reaches_none
  others s hs := by
    rw [show oneSlab.head s = none from if_neg hs]
    exact Lib.not_reaches_none

/-- What `Owned::unsized_to_sized` makes of it. -/
def oneSized : Mem (Fin 2) Large (HeapState Large) :=
  match (Heap.unsizedToSized oneBlock.owner oneBlock.sizeClass).exec Mem.handle oneSlab with
  | .ok (_, m) => m
  | .error _ => oneSlab

set_option maxRecDepth 4000 in
/-- Thread 0 allocates the block, and the slab is detached without being disowned.  Thread 1
frees the block, and steals the slab from its owner. -/
theorem remote_frees_balanced_stolen :
    ∃ w : Pool (Fin 2) (HeapAct (Fin 2) Large) (SlabMem (Fin 2) Large),
      ReflTransGen (Pool.Steps (system { Config.initial false with cacheLocal := 1 } oneBlock)
        Guard.any) (Pool.idle (sized oneBlock oneSized)) w ∧
      w.mem.claims = [1] ∧ w.mem.owner .min = some 1 ∧ Balanced oneBlock w := by
  have hsized : (Heap.unsizedToSized oneBlock.owner oneBlock.sizeClass).exec Mem.handle oneSlab =
    .ok (true, oneSized) := rfl
  have h₀ : ReflTransGen (Pool.Steps (system { Config.initial false with cacheLocal := 1 } oneBlock)
    Guard.any) (Pool.idle (sized oneBlock oneSized)) (Pool.idle (sized oneBlock oneSized)) := .refl
  have h₁ := Pool.call_trans h₀ 0 SlabCall.allocate rfl ⟨rfl, rfl, rfl⟩
  have h₂ := Pool.go_trans h₁ 0 20 rfl
  have h₃ := Pool.call_trans h₂ 1 (SlabCall.free ⟨0, 0⟩) rfl ⟨by decide, rfl⟩
  have h₄ := Pool.go_trans h₃ 1 40 rfl
  exact ⟨_, h₄, rfl, rfl, remote_frees_balanced unsized_oneSlab hsized h₄⟩

end SlabMem

end Cxlalloc
