/-
The owner's calls keep the remote-free protocol, access by access.

They are followed with what the owner knows of its part of the memory (`Held`): it holds a
block that nobody else moves, so the slab is not claimed, and nobody else writes the stacks, the
owner or the bitset.  Once the last block has been put back, or the slab has been stolen, what is
left of a call no longer concerns the slab (`Tail`).
-/
import Cxlalloc.Proofs.RemoteFrees
import Cxlalloc.Proofs.Footprint

namespace Cxlalloc

open Lib
open Lib.Prog (lift)
open Lib.Protocol
open Function
open Cxlalloc.Bracket

namespace SlabMem

variable {T B : Type} [Bracket B] [DecidableEq T] {z : Sizing T B} {m m' : SlabMem T B} {t u : T}
  {b : ℕ} {p : BlockState T} {v v' : View T B}

/-! ### What the owner knows -/

/-- The owner holds block `b`, and sees `v` of the memory. -/
structure Held (z : Sizing T B) (p : BlockState T) (b : ℕ) (v : View T B) (m : SlabMem T B) :
    Prop where
  atOwner : AtOwner z p
  closed : m.closed = false
  place : m.place b = p
  alone : ∀ b', m.place b' = .popped ∨ m.place b' = .freeing z.owner → b' = b
  view : m.view z = v

omit [DecidableEq T] in
theorem AtOwner.ne_gone (h : AtOwner z p) : p ≠ .gone := by
  rintro rfl
  simp [AtOwner] at h

omit [DecidableEq T] in
theorem Held.ne_gone (h : Held z p b v m) : m.place b ≠ .gone := by
  rw [h.place]
  exact h.atOwner.ne_gone

theorem Held.ok (h : Held z p b v m) (hm : m.Sound z) : v.Ok z := by
  rw [← h.view]
  exact hm.view h.closed

omit [DecidableEq T] in
/-- In a call that holds no block yet, any free block will do. -/
theorem Held.other {b' : ℕ} (h : Held z .free b v m) (hb' : m.place b' = .free) :
    Held z .free b' v m := by
  refine { h with place := hb', alone := fun b₁ h₁ => ?_ }
  obtain rfl := h.alone b₁ h₁
  rw [h.place] at h₁
  simp at h₁

/-- With the slab where it belongs, the owner's call is done. -/
theorem Held.rest (h : Held z .free b v m) (hm : m.Sound z) (hv : v.Placed z) :
    Rest z z.owner m where
  freeing b' hb' := by
    obtain rfl := h.alone b' (.inr hb')
    cases h.place.symm.trans hb'
  popped _ b' hb' := by
    obtain rfl := h.alone b' (.inl hb')
    cases h.place.symm.trans hb'
  claimed hlast := by
    rw [hm.no_last h.ne_gone] at hlast
    cases hlast
  placed _ _ := by
    rw [h.view]
    exact hv

variable [DecidableEq B] {cfg : Config} {α β : Type}

theorem stable_held : (freeing z).Stable z.owner (Held z p b v) := by
  refine stable fun u m m' hu hm _ hacts h => ?_
  have hclosed : m'.closed = false := hacts.not_closed hm hu h.closed h.ne_gone
  have hplace : m'.place b = m.place b :=
    (hacts.place b).atOwner_eq hu (by rw [h.place]; exact h.atOwner)
  refine ⟨h.atOwner, hclosed, hplace.trans h.place, fun b' hb' => h.alone b' ?_, ?_⟩
  · have hat : AtOwner z (m.place b') := ((hacts.place b').atOwner_iff hu).mp (.inr hb')
    rwa [(hacts.place b').atOwner_eq hu hat] at hb'
  · rw [hacts.view hu hclosed]
    exact h.view

omit [DecidableEq T] [DecidableEq B] in
theorem quiet_held : Quiet (Held z p b v) :=
  fun _ _ _ h => { h with }

/-- The owner's call returns. -/
theorem Held.keeps_pure {a : α} (h : Held z .free b v m) (hv : v.Placed z) :
    (freeing z).Keeps z.owner (pure a) (fun _ => Rest z z.owner) m := by
  refine keeps_of_rely fun m' hm' hR => ?_
  have h' := stable_held m m' hm' hR h
  exact Protocol.keeps_pure stable_rest (h'.rest hm' hv)

/-- The owner has taken a block out and put the slab where it belongs. -/
def Popped (z : Sizing T B) (b : ℕ) (m : SlabMem T B) : Prop :=
  ∃ v, v.Placed z ∧ Held z .popped b v m

theorem stable_popped : (freeing z).Stable z.owner (Popped z b) := by
  rintro m m' hm' hR ⟨v, hv, h⟩
  exact ⟨v, hv, stable_held m m' hm' hR h⟩

/-! ### What the owner writes -/

variable {next : Index B → Option (Index B)} {head : StackId T B → Option (Index B)}
  {len : StackId T B → ℕ} {owner lastOwner : Index B → Option T}

omit [DecidableEq B] in
/-- Writes of the owner to its part of the memory, while it holds a block. -/
theorem Sound.setView (hm : m.Sound z) (hb : AtOwner z (m.place b))
    (hok : View.Ok z ⟨next, head, len, owner z.index, m.bits z.index⟩) :
    ({ m with
        next := next
        head := head
        len := len
        owner := owner
        lastOwner := lastOwner } : SlabMem T B).Sound z :=
  { hm with view := fun _ => hok, detached := fun _ hnone => absurd hb (hnone b) }

omit [DecidableEq T] [DecidableEq B] in
theorem acts_setView : Acts z z.owner m { m with
    next := next
    head := head
    len := len
    owner := owner
    lastOwner := lastOwner } :=
  { Acts.refl z z.owner m with view := fun h => absurd rfl h }

/-- A write of the owner to its part of the memory. -/
theorem does_setView {act : Access T B Unit} (hok : v.Ok z → v'.Ok z)
    (hbits : v'.bits = v.bits)
    (hneeds : ∀ m, m.Sound z → Held z p b v m → Allowed z z.owner Unit act m)
    (hact : ∀ m, m.view z = v → ∃ owner lastOwner, owner z.index = v'.owner ∧
      handle z z.owner Unit act m = .ok ((), { m with
        next := v'.next
        head := v'.head
        len := v'.len
        owner := owner
        lastOwner := lastOwner })) :
    (freeing z).Does z.owner (Held z p b v) act fun _ => Held z p b v' := by
  refine does hneeds fun m a m' hm h ha => ?_
  obtain ⟨owner, lastOwner, howner, hm'⟩ := hact m h.view
  rw [hm'] at ha
  obtain ⟨-, rfl⟩ := ok_inj ha
  have hmbits : m.bits z.index = v'.bits := by
    rw [hbits, ← h.view]
    rfl
  have hview : (⟨v'.next, v'.head, v'.len, owner z.index, m.bits z.index⟩ : View T B) = v' := by
    rw [howner, hmbits]
  refine ⟨hm.setView (b := b) (by rw [h.place]; exact h.atOwner) ?_, acts_setView,
    { h with view := hview }⟩
  rw [hview]
  exact hok (h.ok hm)

/-- The stack of the slab. -/
abbrev stack (z : Sizing T B) : StackId T B := .sized z.owner z.sizeClass

theorem does_storeHead {h : Option (Index B)} :
    (freeing z).Does z.owner (Held z p b v) (.storeHead (stack z) h) fun _ =>
      Held z p b { v with head := update v.head (stack z) h } := by
  refine does_setView (fun hok => ⟨hok.owner, fun s hs => ?_⟩) rfl (fun _ _ _ => trivial) ?_
  · show ¬ Reaches v.next (update v.head (stack z) h s) z.index
    rw [update_of_ne hs]
    exact hok.others s hs
  · rintro m rfl
    exact ⟨m.owner, m.lastOwner, rfl, rfl⟩

theorem does_storeLen {n : ℕ} :
    (freeing z).Does z.owner (Held z p b v) (.storeLen (stack z) n) fun _ =>
      Held z p b { v with len := update v.len (stack z) n } := by
  refine does_setView (fun hok => ⟨hok.owner, hok.others⟩) rfl (fun _ _ _ => trivial) ?_
  rintro m rfl
  exact ⟨m.owner, m.lastOwner, rfl, rfl⟩

theorem does_storeNext {h : Option (Index B)} :
    (freeing z).Does z.owner (Held z p b v) (.storeNext z.index h) fun _ =>
      Held z p b { v with next := update v.next z.index h } := by
  refine does_setView (fun hok => ⟨hok.owner, fun s hs hr => ?_⟩) rfl (fun _ _ _ => trivial) ?_
  · exact hok.others s hs hr.of_update
  · rintro m rfl
    exact ⟨m.owner, m.lastOwner, rfl, rfl⟩

/-- The slab is disowned while the owner holds a block: nobody can have claimed it. -/
theorem does_disown (hempty : v.bits.elems = ∅) :
    (freeing z).Does z.owner (Held z p b v) (.storeOwner z.index none) fun _ =>
      Held z p b { v with owner := none } := by
  refine does_setView (fun hok => ⟨.inr ⟨rfl, hempty⟩, hok.others⟩) rfl (fun m hm h _ => ?_) ?_
  · exact .inl ⟨h.closed, rfl, hm.no_last h.ne_gone⟩
  · rintro m rfl
    exact ⟨_, _, update_self _ _ _, rfl⟩

/-! ### After the slab's life -/

/-- The slab has been claimed by `t`, or is back in one piece. -/
structure Tail (z : Sizing T B) (t : T) (m : SlabMem T B) : Prop where
  closed : m.closed = true
  claims : m.claims = [] ∨ m.claims = [t]
  freeing : ∀ b, m.place b ≠ .freeing t
  popped : t = z.owner → ∀ b, m.place b ≠ .popped
  claimed : m.last = some t → m.claims = [t]

omit [DecidableEq T] [DecidableEq B] in
theorem Tail.rest (h : Tail z t m) : Rest z t m where
  freeing := h.freeing
  popped := h.popped
  claimed := h.claimed
  placed _ hclosed := by
    rw [h.closed] at hclosed
    cases hclosed

theorem stable_tail [LawfulBracket B] : (freeing z).Stable t (Tail z t) := by
  refine stable fun u m m' hu hm hm' hacts h => ?_
  -- whoever could claim the slab now is `t`, and it has
  have hlast : m.last ≠ some u := by
    intro hlast
    rcases h.claims with hclaims | hclaims
    · exact absurd h.closed (Bool.eq_false_iff.mp (hm.not_closed_of_last hlast hclaims))
    · rcases hm.claims with hnil | ⟨t', ht', hclaims'⟩
      · rw [hnil] at hclaims
        cases hclaims
      · rw [hclaims] at hclaims'
        cases hclaims'
        exact hu (Option.some.inj (hlast.symm.trans ht'))
  have hrest := h.rest.acts hu hacts
  refine ⟨hacts.closed h.closed, ?_, hrest.freeing, hrest.popped, hrest.claimed⟩
  rw [hacts.claims.resolve_right hlast]
  exact h.claims

omit [DecidableEq B] in
/-- Accesses to the rest of the heap keep the protocol. -/
theorem Tail.elsewhere (h : Tail z t m) (hm : m.Sound z) (x : Mem T B (HeapState B)) :
    let m' : SlabMem T B := { m with
      toMem := { x with sizeClass := m.sizeClass, bits := m.bits, remote := m.remote } }
    m'.Sound z ∧ Acts z t m m' ∧ Tail z t m' := by
  have hnot : m.closed ≠ false := by
    rw [h.closed]
    simp
  exact ⟨{ hm with
    view := fun hclosed => absurd hclosed hnot, detached := fun hclosed => absurd hclosed hnot },
    { Acts.refl z t m with view := fun _ hclosed => absurd hclosed hnot }, { h with }⟩

/-- What a thread still does that is done with the slab. -/
def done : Rights B (HeapState B) :=
  { slab := False, remote := False, event := fun e => ∀ c, e ≠ .claim c }

theorem does_done {act : Access T B β} (hact : act.By t done) :
    (freeing z).Does t (Tail z t) act fun _ => Tail z t := by
  refine does (fun m hm h => ?_) fun m a m' hm h ha => ?_
  · cases act with
    | storeOwner i v =>
      cases v with
      | none => exact fun _ => .inr ⟨h.closed, h.claims⟩
      | some u => trivial
    | casWord o old new =>
      cases o with
      | remote i => exact hact.elim
      | _ => trivial
    | record u e =>
      cases e with
      | claim c => exact absurd rfl (hact c)
      | _ => trivial
    | panic e => exact .inl h.closed
    | _ => trivial
  · have hm' : m' = { m with toMem := { m'.toMem with
        sizeClass := m.sizeClass, bits := m.bits, remote := m.remote } } := by
      cases act with
      | storeBits => exact hact.elim
      | storeClass => exact hact.elim
      | storeOwner i v =>
        cases v with
        | none =>
          obtain ⟨-, rfl⟩ := ok_inj ha
          rfl
        | some u =>
          simp only [handle, Mem.handle, note] at ha
          split at ha
          · obtain ⟨-, rfl⟩ := ok_inj ha
            simp only [h.closed]
          · obtain ⟨-, rfl⟩ := ok_inj ha
            rfl
      | storeWord o w =>
        cases o with
        | remote i => exact hact.elim
        | _ =>
          obtain ⟨-, rfl⟩ := ok_inj ha
          rfl
      | casWord o old new =>
        cases o with
        | remote i => exact hact.elim
        | _ =>
          simp only [handle, Mem.handle] at ha
          split_ifs at ha
          · obtain ⟨-, rfl⟩ := ok_inj ha
            rfl
          · obtain ⟨-, rfl⟩ := ok_inj ha
            rfl
      | check p e =>
        simp only [handle, Mem.handle] at ha
        split_ifs at ha
        obtain ⟨-, rfl⟩ := ok_inj ha
        rfl
      | record u e =>
        cases e with
        | claim c => exact absurd rfl (hact c)
        | _ =>
          obtain ⟨-, rfl⟩ := ok_inj ha
          rfl
      | panic e => cases ha
      | _ =>
        obtain ⟨-, rfl⟩ := ok_inj ha
        rfl
    rw [hm']
    exact h.elsewhere hm m'.toMem

theorem keeps_done [LawfulBracket B] {q : HeapCode T B α} (hq : Built t done q) (hm : Tail z t m) :
    (freeing z).Keeps t q (fun _ => Rest z t) m :=
  (keeps_of_only (hq.only trivial) stable_tail (fun _ _ h => does_done h) hm).mono fun _ _ h => h.rest

section Bits

variable {q : BlockState T} {s : BitSet (rows B)}

omit [DecidableEq B] in
theorem blocks_gone_congr (h : ∀ b, m'.place b = .gone ↔ m.place b = .gone) :
    m'.blocks z (· = .gone) = m.blocks z (· = .gone) :=
  Finset.filter_congr fun b _ => by simp [h b]

/-- What the owner makes of the bitset: it takes a block out, or puts one back. -/
structure Rewrites (z : Sizing T B) (b : ℕ) (p q : BlockState T)
    (s s' : BitSet (rows B)) : Prop where
  places : p = .free ∧ q = .popped ∨ p = .freeing z.owner ∧ q = .free
  valid : s'.validate = true
  mem_iff : ∀ b', b' ∈ s'.elems ↔ b' = b ∧ q = .free ∨ b' ≠ b ∧ b' ∈ s.elems

omit [DecidableEq B] in
/-- Only that block moves. -/
theorem Rewrites.place_eq (h : Rewrites z b p q (m.bits z.index) s) (hm : m.Sound z)
    (hb : m.place b = p) : (fun b' => if s.has b' then .free
      else if m.place b' = .free then .popped else m.place b') = update m.place b q := by
  funext b'
  by_cases hb' : b' = b
  · subst hb'
    rw [update_self]
    rcases h.places with ⟨rfl, rfl⟩ | ⟨rfl, rfl⟩
    · have hhas : ¬ s.has b' = true := by
        rw [BitSet.has_iff, h.mem_iff]
        simp
      rw [if_neg hhas, if_pos hb]
    · have hhas : s.has b' = true := by
        rw [BitSet.has_iff, h.mem_iff]
        simp
      rw [if_pos hhas]
  · rw [update_of_ne hb']
    have hhas : s.has b' = true ↔ m.place b' = .free := by
      rw [BitSet.has_iff, h.mem_iff, ← hm.mem_bits]
      simp [hb']
    by_cases hfree : m.place b' = .free
    · rw [if_pos (hhas.mpr hfree), hfree]
    · rw [if_neg (mt hhas.mp hfree), if_neg hfree]

/-- The memory after the owner has written the bitset. -/
def withBits (z : Sizing T B) (m : SlabMem T B) (b : ℕ) (q : BlockState T)
    (s : BitSet (rows B)) : SlabMem T B :=
  { m with
    bits := update m.bits z.index s
    place := update m.place b q
    closed := m.closed || s.len == count z.sizeClass }

theorem handle_storeBits (hm : m.Sound z) (h : Rewrites z b p q (m.bits z.index) s)
    (hb : m.place b = p) :
    handle z t Unit (.storeBits z.index s) m = .ok ((), m.withBits z b q s) := by
  have hplace := h.place_eq hm hb
  simp only [handle, Mem.handle, note, if_true, withBits, ← hplace]

omit [DecidableEq B] in
theorem Sound.withBits (hm : m.Sound z) (h : Rewrites z b p q (m.bits z.index) s)
    (hheld : Held z p b v m) (howner : v.owner = some z.owner) : (m.withBits z b q s).Sound z := by
  have hq : AtOwner z q ∧ (∀ t, q ≠ .freeing t) := by
    rcases h.places with ⟨-, rfl⟩ | ⟨-, rfl⟩
    · exact ⟨.inr (.inl rfl), fun t => by simp⟩
    · exact ⟨.inl rfl, fun t => by simp⟩
  have hplace : ∀ {b'}, b' ≠ b → (m.withBits z b q s).place b' = m.place b' :=
    fun hb' => update_of_ne hb' _ _
  have hself : (m.withBits z b q s).place b = q := update_self _ _ _
  have hbits : (m.withBits z b q s).bits z.index = s := update_self _ _ _
  have hmem : ∀ b', b' ∈ s.elems ↔ (m.withBits z b q s).place b' = .free := by
    intro b'
    rw [h.mem_iff]
    by_cases hb' : b' = b
    · subst hb'
      simp [hself]
    · rw [hplace hb', ← hm.mem_bits]
      simp [hb']
  have hlt := hm.lt_count hheld.ne_gone
  have hgone : ∀ b', (m.withBits z b q s).place b' = .gone ↔ m.place b' = .gone := by
    intro b'
    by_cases hb' : b' = b
    · subst hb'
      exact iff_of_false (fun h' => hq.1.ne_gone (hself.symm.trans h')) hheld.ne_gone
    · rw [hplace hb']
  have hpopped : ∀ b', (m.withBits z b q s).place b' = .popped → b' = b := by
    intro b' hb'
    by_contra hne
    rw [hplace hne] at hb'
    exact hne (hheld.alone b' (.inl hb'))
  have hlast := hm.no_last hheld.ne_gone
  refine { hm with valid := ?_, mem_bits := ?_, outside := ?_, gone := ?_, freeingOnce := ?_,
                   poppedOnce := ?_, last := ?_, ended := ?_, closed := ?_, view := ?_, detached := ?_ }
  · rw [hbits]
    exact h.valid
  · rw [hbits]
    exact hmem
  · exact fun b' hb' => (hgone b').mpr (hm.outside b' hb')
  · rw [blocks_gone_congr hgone]
    exact hm.gone
  · intro t b₁ b₂ h₁ h₂
    have hne : ∀ {b'}, (m.withBits z b q s).place b' = .freeing t → b' ≠ b := by
      rintro b' hb' rfl
      exact hq.2 t (hself.symm.trans hb')
    rw [hplace (hne h₁)] at h₁
    rw [hplace (hne h₂)] at h₂
    exact hm.freeingOnce t b₁ b₂ h₁ h₂
  · exact fun b₁ b₂ h₁ h₂ => (hpopped b₁ h₁).trans (hpopped b₂ h₂).symm
  · intro t ht
    have ht : m.last = some t := ht
    rw [hlast] at ht
    cases ht
  · exact fun hall => absurd (hself.symm.trans (hall b)) hq.1.ne_gone
  · -- with as many free blocks as the slab has, all are free
    intro hclosed
    have hlen : s.len = count z.sizeClass := by
      have hclosed : (m.closed || s.len == count z.sizeClass) = true := hclosed
      rw [hheld.closed] at hclosed
      simpa using hclosed
    have hsub : s.elems ⊆ Finset.range (count z.sizeClass) := by
      intro b' hb'
      rw [Finset.mem_range]
      refine hm.lt_count fun hb'' => ?_
      have := ((hgone b').mpr hb'').symm.trans ((hmem b').mp hb')
      cases this
    have hall : s.elems = Finset.range (count z.sizeClass) := by
      refine Finset.eq_of_subset_of_card_le hsub ?_
      rw [Finset.card_range, ← hlen, BitSet.len_eq_card h.valid]
    refine .inr fun b' hb' => (hmem b').mp ?_
    rw [hall]
    exact Finset.mem_range.mpr hb'
  · intro _
    have hok := hheld.ok hm
    have hview := hheld.view
    subst hview
    exact ⟨.inl howner, hok.others⟩
  · exact fun _ hnone => absurd hq.1 (hself ▸ hnone b)

/-- The owner writes the bitset. -/
theorem does_storeBits (h : Rewrites z b p q v.bits s) (howner : v.owner = some z.owner) :
    (freeing z).Does z.owner (Held z p b v) (.storeBits z.index s) fun _ m =>
      (s.len ≠ count z.sizeClass → Held z q b { v with bits := s } m) ∧
      (s.len = count z.sizeClass → Tail z z.owner m) := by
  refine does (fun _ _ _ => trivial) fun m a m' hm hheld ha => ?_
  have hview := hheld.view
  have hbits : v.bits = m.bits z.index := by rw [← hview]; rfl
  rw [hbits] at h
  rw [handle_storeBits hm h hheld.place] at ha
  obtain ⟨-, rfl⟩ := ok_inj ha
  have hm' := hm.withBits h hheld howner
  refine ⟨hm', ⟨fun b' => ?_, .inl rfl, .inl rfl, fun hclosed => ?_, fun _ _ => .inl rfl,
    fun hu => absurd rfl hu⟩, fun hlen => ?_, fun hlen => ?_⟩
  · by_cases hb' : b' = b
    · subst hb'
      show Moves z z.owner (m.place b') (update m.place b' q b')
      rw [update_self, hheld.place]
      rcases h.places with ⟨rfl, rfl⟩ | ⟨rfl, rfl⟩
      · exact .pop rfl
      · exact .set rfl
    · show Moves z z.owner (m.place b') (update m.place b q b')
      rw [update_of_ne hb']
      exact .stay _
  · rw [hheld.closed] at hclosed
    cases hclosed
  · refine ⟨?_, ?_, update_self _ _ _, fun b' hb' => ?_, ?_⟩
    · rcases h.places with ⟨-, rfl⟩ | ⟨-, rfl⟩
      · exact .inr (.inl rfl)
      · exact .inl rfl
    · show (m.closed || s.len == count z.sizeClass) = false
      simp [hheld.closed, hlen]
    · by_contra hne
      rw [show (m.withBits z b q s).place b' = m.place b' from update_of_ne hne _ _] at hb'
      exact hne (hheld.alone b' hb')
    · rw [← hview]
      simp [SlabMem.view, SlabMem.withBits]
  · have hclosed : (m.withBits z b q s).closed = true := by
      show (m.closed || s.len == count z.sizeClass) = true
      simp [hlen]
    have hlast := hm.no_last hheld.ne_gone
    have hclaims : (m.withBits z b q s).claims = [] := hm.no_claims hlast
    have hout : ∀ b', (m.withBits z b q s).place b' ≠ .gone →
        ¬ (m.withBits z b q s).place b' ≠ .free := fun b' hgone hfree => by
      rw [hm'.not_closed hgone hfree] at hclosed
      cases hclosed
    refine ⟨hclosed, .inl hclaims, fun b' hb' => ?_, fun _ b' hb' => ?_, fun ht => ?_⟩
    · exact hout b' (by rw [hb']; simp) (by rw [hb']; simp)
    · exact hout b' (by rw [hb']; simp) (by rw [hb']; simp)
    · have ht : m.last = some z.owner := ht
      rw [hlast] at ht
      cases ht

end Bits

/-! ### `pop` -/

variable {J : SlabMem T B → Prop}

theorem does_loadHead {s : StackId T B} :
    (freeing z).Does t J (.loadHead s) fun r m => J m ∧ r = m.head s :=
  does_read (fun m => m.head s) (fun _ => trivial) fun _ => rfl

theorem does_loadLen {s : StackId T B} :
    (freeing z).Does t J (.loadLen s) fun r m => J m ∧ r = m.len s :=
  does_read (fun m => m.len s) (fun _ => trivial) fun _ => rfl

variable {i : Index B}

theorem does_loadNext : (freeing z).Does t J (.loadNext i) fun r m => J m ∧ r = m.next i :=
  does_read (fun m => m.next i) (fun _ => trivial) fun _ => rfl

theorem does_loadOwner : (freeing z).Does t J (.loadOwner i) fun r m => J m ∧ r = m.owner i :=
  does_read (fun m => m.owner i) (fun _ => trivial) fun _ => rfl

theorem does_loadClass : (freeing z).Does t J (.loadClass i) fun r m => J m ∧ r = m.sizeClass i :=
  does_read (fun m => m.sizeClass i) (fun _ => trivial) fun _ => rfl

theorem does_loadBits : (freeing z).Does t J (.loadBits i) fun r m => J m ∧ r = m.bits i :=
  does_read (fun m => m.bits i) (fun _ => trivial) fun _ => rfl

theorem does_loadWord {o : Obj B α} :
    (freeing z).Does t J (.loadWord o) fun w m => J m ∧ w = m.word o :=
  does_read (fun m => m.word o) (fun _ => trivial) fun _ => rfl

theorem does_flushCxl : (freeing z).Does t J (.flushCxl i) fun _ => J :=
  does_write id (fun _ _ _ => trivial) (fun _ => rfl) fun m hm hj => ⟨hm, .refl z t m, hj⟩

theorem keeps_help {w : Word T α} (hJ : (freeing z).Stable t J) (hquiet : Quiet J)
    (hm : J m) : (freeing z).Keeps t (Detectable.help t w) (fun _ => J) m :=
  Detectable.keeps_help hJ hJ (fun _ _ _ h => h) (fun _ _ => does_storeHelp hquiet) hm

/-- The slab comes off the owner's stack. -/
def View.popped (z : Sizing T B) (v : View T B) : View T B :=
  { v with
    head := update v.head (stack z) (v.next z.index)
    len := update v.len (stack z) (v.len (stack z) - 1) }

/-- The slab goes on the owner's stack. -/
def View.pushed (z : Sizing T B) (v : View T B) : View T B :=
  { v with
    next := update v.next z.index (v.head (stack z))
    head := update v.head (stack z) (some z.index)
    len := update v.len (stack z) (v.len (stack z) + 1) }

/-- `stack::Local::pop` of the owner. -/
theorem keeps_stackPop (hhead : v.head (stack z) = some z.index) (hlen : 0 < v.len (stack z))
    (hm : Held z p b v m) :
    (freeing z).Keeps z.owner (Stack.pop (stack z))
      (fun r m' => r = some z.index ∧ Held z p b (v.popped z) m') m := by
  refine keeps_access does_loadHead stable_held (fun r m₁ _ h₁ => ?_) hm
  obtain ⟨h₁, rfl⟩ := h₁
  rw [show m₁.head (stack z) = some z.index by rw [← hhead, ← h₁.view]; rfl]
  refine keeps_access does_loadNext stable_held (fun r m₂ _ h₂ => ?_) h₁
  obtain ⟨h₂, rfl⟩ := h₂
  rw [show m₂.next z.index = v.next z.index by rw [← h₂.view]; rfl]
  refine keeps_access does_storeHead stable_held (fun _ m₃ _ h₃ => ?_) h₂
  refine keeps_access does_loadLen stable_held (fun r m₄ _ h₄ => ?_) h₃
  obtain ⟨h₄, rfl⟩ := h₄
  rw [show m₄.len (stack z) = v.len (stack z) from congrFun (congrArg View.len h₄.view) (stack z),
    checkedSub, if_pos (Nat.succ_le_of_lt hlen)]
  refine keeps_access does_storeLen stable_held (fun _ m₅ _ h₅ => ?_) h₄
  exact keeps_pure (fun m m' hI hR h => ⟨h.1, stable_held m m' hI hR h.2⟩) ⟨rfl, h₅⟩

/-- `stack::Local::push` of the owner. -/
theorem keeps_stackPush (hm : Held z p b v m) :
    (freeing z).Keeps z.owner (Stack.push (stack z) z.index)
      (fun _ => Held z p b (v.pushed z)) m := by
  refine keeps_access does_loadHead stable_held (fun r m₁ _ h₁ => ?_) hm
  obtain ⟨h₁, rfl⟩ := h₁
  rw [show m₁.head (stack z) = v.head (stack z) by rw [← h₁.view]; rfl]
  refine keeps_access does_storeNext stable_held (fun _ m₂ _ h₂ => ?_) h₁
  refine keeps_access does_storeHead stable_held (fun _ m₃ _ h₃ => ?_) h₂
  refine keeps_access does_loadLen stable_held (fun r m₄ _ h₄ => ?_) h₃
  obtain ⟨h₄, rfl⟩ := h₄
  rw [show m₄.len (stack z) = v.len (stack z) from congrFun (congrArg View.len h₄.view) (stack z)]
  exact keeps_lift does_storeLen stable_held (fun _ => stable_held) h₄

/-- `Local::disown` of the owner. -/
theorem keeps_disown (hempty : v.bits.elems = ∅) (howner : v.owner = some z.owner)
    (hm : Held z p b v m) :
    (freeing z).Keeps z.owner (Slab.disown cfg z.owner z.index)
      (fun _ => Held z p b { v with owner := none }) m := by
  have hstore : ∀ m, Held z p b v m → (freeing z).Keeps z.owner
      (lift (.storeOwner z.index none)) (fun _ => Held z p b { v with owner := none }) m :=
    fun m h => keeps_lift (does_disown hempty) stable_held (fun _ => stable_held) h
  unfold Slab.disown
  split
  · refine keeps_access does_loadOwner stable_held (fun r m₁ _ h₁ => ?_) hm
    obtain ⟨h₁, rfl⟩ := h₁
    rw [show m₁.owner z.index = some z.owner by rw [← howner, ← h₁.view]; rfl]
    exact keeps_ite (fun h => absurd rfl h) fun _ => hstore m₁ h₁
  · exact hstore m hm

/-- `Heap::detach`, with or without disowning the slab. -/
theorem keeps_detach (hempty : v.bits.elems = ∅) (howner : v.owner = some z.owner)
    (hplaced : v.Placed z) (hm : Held z .popped b v m) :
    (freeing z).Keeps z.owner (Heap.detach cfg z.owner z.sizeClass z.index)
      (fun _ => Popped z b) m := by
  refine keeps_access (does_record fun c => by simp) stable_held (fun _ m₁ _ h₁ => ?_) hm
  refine keeps_bind ((Detectable.keeps_load stable_held (fun _ => stable_held) does_loadWord
    (fun _ _ _ h => keeps_help stable_held quiet_held h.1) h₁).mono fun rem m₂ h₂ => ?_)
  obtain ⟨-, -, h₂⟩ := h₂
  refine keeps_ite (fun _ => ?_) fun _ => keeps_pure stable_popped ⟨v, hplaced, h₂⟩
  refine keeps_access (does_record fun c => by simp) stable_held (fun _ m₃ _ h₃ => ?_) h₂
  refine keeps_bind ((keeps_disown hempty howner h₃).mono fun _ m₄ h₄ => ?_)
  refine keeps_access (k := pure) does_flushCxl stable_held (fun _ m₅ _ h₅ => ?_) h₄
  exact keeps_pure stable_popped ⟨{ v with owner := none }, ⟨hplaced.top, hplaced.off⟩, h₅⟩

/-! ### Taking a block out -/

/-- What the owner's stack looks like once the slab is off it. -/
theorem View.Placed.popped (h : v.Placed z) (hne : v.bits.elems.Nonempty)
    {s : BitSet (rows B)} (hs : s.elems = ∅) :
    View.Placed z (View.popped z { v with bits := s }) where
  top hne' := by
    have hne' : s.elems.Nonempty := hne'
    rw [hs] at hne'
    exact absurd hne' Finset.not_nonempty_empty
  off _ := by
    show ¬ Reaches v.next (update v.head (stack z) (v.next z.index) (stack z)) z.index
    rw [update_self]
    exact (h.top hne).2.1

section Allocate

variable [LawfulBracket B]

omit [DecidableEq T] [DecidableEq B] in
theorem rewrites_pop (hvalid : v.bits.validate = true) (hne : v.bits.elems.Nonempty) :
    Rewrites z v.bits.peekUnchecked.toNat .free .popped v.bits
      (v.bits.erased v.bits.peekUnchecked) where
  places := .inl ⟨rfl, rfl⟩
  valid := BitSet.validate_erased_peek LawfulBracket.rows_le hvalid hne
  mem_iff b' := by
    rw [BitSet.elems_erased (BitSet.peek_spec hvalid hne).1, Finset.mem_erase]
    simp

/-- `Heap::pop` of the block that `peek` found. -/
theorem keeps_pop (hne : v.bits.elems.Nonempty) (hplaced : v.Placed z)
    (hm : Held z .free v.bits.peekUnchecked.toNat v m) :
    (freeing z).Keeps z.owner
      (Heap.pop cfg z.owner z.sizeClass z.index v.bits.peekUnchecked) (fun offset m =>
        offset = Offset.fromBlock z.sizeClass z.index v.bits.peekUnchecked ∧
          Popped z v.bits.peekUnchecked.toNat m) m := by
  refine keeps_access (does_record fun c => by simp) stable_held (fun _ m₁ _ h₁ => ?_) hm
  refine keeps_access does_loadBits stable_held (fun s m₂ hm₂ h₂ => ?_) h₁
  obtain ⟨h₂, rfl⟩ := h₂
  have hm₂ : m₂.Sound z := hm₂
  have hbits : m₂.bits z.index = v.bits := by rw [← h₂.view]; rfl
  have hvalid : v.bits.validate = true := hbits ▸ hm₂.valid
  have howner : v.owner = some z.owner := by
    refine (h₂.ok hm₂).owner.resolve_right fun h => ?_
    rw [h.2] at hne
    exact Finset.not_nonempty_empty hne
  rw [hbits, BitSet.unset_peek_eq cfg.validate LawfulBracket.rows_le hvalid hne]
  have hrewrites := rewrites_pop (z := z) hvalid hne
  -- a block is missing now
  have hlen : (v.bits.erased v.bits.peekUnchecked).len ≠ count z.sizeClass := by
    have hpeek := BitSet.peek_spec hvalid hne
    have hcard := Finset.card_erase_add_one hpeek.2.1
    have hle := hm₂.card_elems_le
    rw [hbits] at hle
    rw [BitSet.len_eq_card hrewrites.valid, BitSet.elems_erased hpeek.1]
    omega
  generalize v.bits.erased v.bits.peekUnchecked = s at hrewrites hlen
  have hstable : ∀ offset : Offset B, (freeing z).Stable z.owner fun m =>
      offset = Offset.fromBlock z.sizeClass z.index v.bits.peekUnchecked ∧
        Popped z v.bits.peekUnchecked.toNat m :=
    fun _ m m' hm' hR h => ⟨h.1, stable_popped m m' hm' hR h.2⟩
  refine keeps_access (does_storeBits hrewrites howner) stable_held (fun _ m₃ hm₃ h₃ => ?_) h₂
  have h₃ := h₃.1 hlen
  refine keeps_ite (fun hempty => ?_) fun hempty => ?_
  · rw [BitSet.isEmpty_iff hrewrites.valid] at hempty
    obtain ⟨hhead, -, hpos⟩ := hplaced.top hne
    refine keeps_bind ((keeps_stackPop (v := { v with bits := s }) hhead hpos h₃).mono
      fun r m₄ h₄ => ?_)
    obtain ⟨rfl, h₄⟩ := h₄
    show Keeps _ _ (Heap.detach cfg z.owner z.sizeClass z.index >>= fun _ => pure _) _ _
    refine keeps_bind ((keeps_detach (v := View.popped z { v with bits := s }) hempty howner
      (hplaced.popped hne hempty) h₄).mono fun _ m₅ h₅ => ?_)
    exact keeps_pure (hstable _) ⟨rfl, h₅⟩
  · refine keeps_pure (hstable _) ⟨rfl, { v with bits := s },
      ⟨fun _ => hplaced.top hne, fun h => ?_⟩, h₃⟩
    exact absurd ((BitSet.isEmpty_iff hrewrites.valid).mpr h) hempty

/-- `peek` and `pop` of the owner, with the slab on top of its stack. -/
theorem keeps_allocateBlock (hne : v.bits.elems.Nonempty) (hplaced : v.Placed z)
    (hm : Held z .free b v m) :
    (freeing z).Keeps z.owner (Heap.allocateBlock cfg z.owner z.sizeClass) (fun r m =>
      ∃ block : Bit, block.toNat < count z.sizeClass ∧
        r = some (Offset.fromBlock z.sizeClass z.index block) ∧ Popped z block.toNat m) m := by
  refine keeps_bind (keeps_access does_loadHead stable_held (fun r m₁ _ h₁ => ?_) hm)
  obtain ⟨h₁, rfl⟩ := h₁
  rw [show m₁.head (.sized z.owner z.sizeClass) = some z.index by
    rw [← (hplaced.top hne).1, ← h₁.view]; rfl]
  refine keeps_access does_loadBits stable_held (fun s m₂ hm₂ h₂ => ?_) h₁
  obtain ⟨h₂, rfl⟩ := h₂
  rw [show m₂.bits z.index = v.bits by rw [← h₂.view]; rfl]
  refine fun m₃ hm₃ hR => ?_
  have h₃ := stable_held m₂ m₃ hm₃ hR h₂
  have hm₃ : m₃.Sound z := hm₃
  have hbits : m₃.bits z.index = v.bits := by rw [← h₃.view]; rfl
  have hpeek := (BitSet.peek_spec (hbits ▸ hm₃.valid) hne).2.1
  have hfree : m₃.place v.bits.peekUnchecked.toNat = .free := by
    rw [← hm₃.mem_bits, hbits]
    exact hpeek
  have hlt : v.bits.peekUnchecked.toNat < count z.sizeClass :=
    hm₃.lt_count (by simp [hfree])
  refine keeps_bind ((keeps_pop hne hplaced (h₃.other hfree)).mono fun offset m₄ h₄ => ?_)
  obtain ⟨rfl, h₄⟩ := h₄
  refine keeps_pure (fun m m' hm' hR h => ?_) ⟨_, hlt, rfl, h₄⟩
  obtain ⟨block, hb, hr, h⟩ := h
  exact ⟨block, hb, hr, stable_popped m m' hm' hR h⟩

end Allocate

/-! ### `free` of the owner -/

omit [DecidableEq T] [DecidableEq B] in
theorem rewrites_set {block : Bit} (hvalid : v.bits.validate = true)
    (hrow : block.row.val < rows B) (hnew : block.toNat ∉ v.bits.elems) :
    Rewrites z block.toNat (.freeing z.owner) .free v.bits (v.bits.inserted block) where
  places := .inr ⟨rfl, rfl⟩
  valid := BitSet.validate_inserted hvalid hrow hnew
  mem_iff b' := by
    rw [BitSet.elems_inserted hrow, Finset.mem_insert]
    by_cases hb' : b' = block.toNat
    · simp [hb']
    · simp [hb']

/-- What the owner's stack looks like once the slab is on it. -/
theorem View.Placed.pushed (h : v.Placed z) (hempty : v.bits.elems = ∅)
    {s : BitSet (rows B)} (hs : s.elems.Nonempty) :
    View.Placed z (View.pushed z { v with bits := s }) where
  top _ := by
    refine ⟨update_self _ _ _, ?_, ?_⟩
    · show ¬ Reaches (update v.next z.index (v.head (stack z)))
        (update v.next z.index (v.head (stack z)) z.index) z.index
      rw [update_self]
      exact fun hr => h.off hempty hr.of_update
    · show 0 < update v.len (stack z) (v.len (stack z) + 1) (stack z)
      rw [update_self]
      exact Nat.succ_pos _
  off hempty' := by
    have hempty' : s.elems = ∅ := hempty'
    rw [hempty'] at hs
    exact absurd hs Finset.not_nonempty_empty

variable [LawfulBracket B]

/-- What the owner does after it has put a block back. -/
theorem keeps_afterSet {s : BitSet (rows B)} (hplaced : v.Placed z)
    (hvalid : s.validate = true) (hs : s.elems = insert b v.bits.elems) (hnew : b ∉ v.bits.elems)
    (hsound : m.Sound z)
    (hm : (s.len ≠ count z.sizeClass → Held z .free b { v with bits := s } m) ∧
      (s.len = count z.sizeClass → Tail z z.owner m)) :
    (freeing z).Keeps z.owner
      (do
        if s.len = 1 then Heap.attach z.owner z.sizeClass z.index
        if s.len < count z.sizeClass then
          pure ()
        else
          Heap.sizedToUnsized z.owner z.sizeClass z.index
          Heap.validateOwned cfg z.owner
          lift (.record z.owner (.sizedToUnsized z.sizeClass))
          Heap.unsizedToGlobal cfg z.owner)
      (fun _ => Rest z z.owner) m := by
  by_cases hfull : s.len = count z.sizeClass
  · -- the slab is back in one piece
    have hrest : Built z.owner done (if s.len < count z.sizeClass then pure ()
        else do
          Heap.sizedToUnsized z.owner z.sizeClass z.index
          Heap.validateOwned cfg z.owner
          lift (.record z.owner (.sizedToUnsized z.sizeClass))
          Heap.unsizedToGlobal cfg z.owner : HeapCode T B Unit) :=
      .ite (.pure _) (.bind (Heap.by_sizedToUnsized trivial) fun _ =>
        .bind Heap.by_validateOwned fun _ => .bind (.lift fun c => by simp) fun _ =>
        Heap.by_unsizedToGlobal (fun c => by simp) fun _ => trivial)
    refine keeps_done (.ite ?_ hrest) (hm.2 hfull)
    exact .bind (.bind (.lift fun c => by simp) fun _ => Stack.by_push rfl) fun _ => hrest
  · have h := hm.1 hfull
    have hlt : s.len < count z.sizeClass := by
      have hle := hsound.card_elems_le
      rw [show m.bits z.index = s from congrArg View.bits h.view, ← BitSet.len_eq_card hvalid] at hle
      omega
    have hcard : s.len = v.bits.elems.card + 1 := by
      rw [BitSet.len_eq_card hvalid, hs, Finset.card_insert_of_notMem hnew]
    have hne : s.elems.Nonempty := hs ▸ Finset.insert_nonempty _ _
    rw [if_pos hlt]
    refine keeps_ite (fun hone => ?_) fun hone => ?_
    · have hempty : v.bits.elems = ∅ := Finset.card_eq_zero.mp (by omega)
      refine keeps_bind (keeps_access (does_record fun c => by simp) stable_held
        (fun _ m₁ _ h₁ => ?_) h)
      refine (keeps_stackPush h₁).mono fun _ m₂ h₂ => ?_
      exact h₂.keeps_pure (hplaced.pushed hempty hne)
    · have hne' : v.bits.elems.Nonempty := Finset.card_pos.mp (by omega)
      refine h.keeps_pure ⟨fun _ => hplaced.top hne', fun hempty => ?_⟩
      have hempty : s.elems = ∅ := hempty
      rw [hempty] at hne
      exact absurd hne Finset.not_nonempty_empty

/-- The owner puts a block back. -/
theorem keeps_freeLocal {block : Bit} (hb : block.toNat < count z.sizeClass)
    (howner : v.owner = some z.owner) (hplaced : v.Placed z)
    (hm : Held z (.freeing z.owner) block.toNat v m) :
    (freeing z).Keeps z.owner
      (do
        let c ← lift (.loadClass z.index)
        let block ← (match (Offset.fromBlock z.sizeClass z.index block).intoBlock c with
          | some block => pure block
          | none => panic .divideByZero : HeapCode T B Bit)
        lift (.record z.owner (.free (size c)))
        Heap.log z.owner (.applicationToSized z.index block)
        let free ← ofExcept ((← lift (.loadBits z.index)).set cfg.validate block)
        lift (.storeBits z.index free)
        let count := free.len
        if count = 1 then Heap.attach z.owner c z.index
        if count < Bracket.count c then
          pure ()
        else
          Heap.sizedToUnsized z.owner c z.index
          Heap.validateOwned cfg z.owner
          lift (.record z.owner (.sizedToUnsized c))
          Heap.unsizedToGlobal cfg z.owner)
      (fun _ => Rest z z.owner) m := by
  refine keeps_access does_loadClass stable_held (fun c m₁ hm₁ h₁ => ?_) hm
  obtain ⟨h₁, rfl⟩ := h₁
  have hm₁ : m₁.Sound z := hm₁
  rw [hm₁.sizeClass, Offset.intoBlock_fromBlock z.nonzero hb]
  refine keeps_access (does_record fun c => by simp) stable_held (fun _ m₂ _ h₂ => ?_) h₁
  refine keeps_access (does_storeLog quiet_held) stable_held (fun _ m₃ _ h₃ => ?_) h₂
  refine keeps_access does_loadBits stable_held (fun s m₄ hm₄ h₄ => ?_) h₃
  obtain ⟨h₄, rfl⟩ := h₄
  have hm₄ : m₄.Sound z := hm₄
  have hbits : m₄.bits z.index = v.bits := by rw [← h₄.view]; rfl
  have hvalid : v.bits.validate = true := hbits ▸ hm₄.valid
  have hrow : block.row.val < rows B := Bit.row_lt hb
  have hnew : block.toNat ∉ v.bits.elems := by
    rw [← hbits, hm₄.mem_bits, h₄.place]
    simp
  rw [hbits, BitSet.set_eq cfg.validate hvalid hrow hnew]
  have hrewrites := rewrites_set (z := z) hvalid hrow hnew
  have helems := BitSet.elems_inserted (s := v.bits) hrow
  generalize v.bits.inserted block = s at hrewrites helems
  refine keeps_access (does_storeBits hrewrites howner) stable_held (fun _ m₅ hm₅ h₅ => ?_) h₄
  exact keeps_afterSet hplaced hrewrites.valid helems hnew hm₅ h₅

end SlabMem

end Cxlalloc
