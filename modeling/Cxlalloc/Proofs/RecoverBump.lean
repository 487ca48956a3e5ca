/-
Recovery from a crash while new slabs are taken.

The compare-exchange on `bump` makes a range of slabs the thread's.  They are linked one by
one, and the range becomes the unsized stack, which was empty.  The record names the start
of the range, and recovery links it again from there.  It never reads what it writes, so it
may be cut off anywhere and started over.

The other threads go on meanwhile, with calls of their own.  That none of them gets hold of the
range, or bumps into it, is what the protocol of the heap says of them (`allocating`); the thread
that crashes keeps to the same protocol, access by access, on its way to the crash and in every
recovery (`Knows`).  What is followed here next to its view is the record, and what came of it.
-/
import Cxlalloc.HeapCrash
import Cxlalloc.Proofs.HeapCalls

namespace Cxlalloc

open Lib
open Lib.Prog
open Cxlalloc.Bracket
open Function
open Relation

namespace View

/-- The record of a thread, and whether a compare-exchange took effect after it. -/
structure Note (B : Type) [Bracket B] where
  record : Option (HeapState B)
  cas : Option Bool

variable {T B α β : Type} [Bracket B]

/-- What an access does to them. -/
def Note.after (β : Type) : Access T B β → β → Note B → Note B
  | .storeLog _ r, _, _ => ⟨r, some false⟩
  | act, b, n => { n with cas := Lone.swapped n.cas act b }

/-- There is no record of a bump since the call began. -/
def Note.Unbumped (n : Note B) : Prop :=
  ∀ s version, n.record = some (.bumpToUnsized s version) → n.cas = none

/-- Where a call may be stopped, with `k` slabs to a bump.  If the compare-exchange took effect, the
slabs from the recorded start on are the thread's; otherwise its unsized stack is still empty. -/
def Stopped (k : ℕ) (y : View T B × Note B) : Prop :=
  ∀ s version, y.2.record = some (.bumpToUnsized s version) →
    (y.2.cas = some false → y.1.head none = none) ∧
      (y.2.cas = some true → (s.getD .min).value + k < 2 ^ 32 ∧
        ∀ j ∈ (s.getD .min).run k, y.1.place j = .unsized)

variable {t : T} {c : B} {i : Index B} {k n : ℕ} {v : View T B} {y : Note B} {cfg : Config}

theorem Note.Unbumped.stopped (h : y.Unbumped) : Stopped k (v, y) := fun s version hrecord => by
  show (y.cas = some false → _) ∧ (y.cas = some true → _)
  rw [h s version hrecord]
  exact ⟨fun hcas => (by cases hcas), fun hcas => by cases hcas⟩

/-- If there is one, its compare-exchange did not take effect. -/
def Note.Unmoved (n : Note B) : Prop :=
  ∀ s version, n.record = some (.bumpToUnsized s version) → n.cas ≠ some true

theorem Note.Unbumped.unmoved (h : y.Unbumped) : y.Unmoved := fun s version hrecord => by
  rw [h s version hrecord]
  simp

theorem Note.Unmoved.stopped (h : y.Unmoved) (hempty : v.head none = none) : Stopped k (v, y) :=
  fun s version hrecord => ⟨fun _ => hempty, fun hcas => absurd hcas (h s version hrecord)⟩

theorem stopped_of_gained {s : Option (Index B)} {version : Version}
    (hlt : (s.getD .min).value + k < 2 ^ 32)
    (hown : ∀ j ∈ (s.getD .min).run k, v.place j = .unsized) :
    Stopped k (v, ⟨some (.bumpToUnsized s version), some true⟩) := by
  intro s' version' heq
  cases heq
  exact ⟨fun h => (by cases h), fun _ => ⟨hlt, hown⟩⟩

/-- After the compare-exchange it is the places that count. -/
theorem Stopped.congr {y : View T B × Note B} {v' : View T B} (h : Stopped k y)
    (hcas : y.2.cas = some true) (hplace : v'.place = y.1.place) : Stopped k (v', y.2) := by
  intro s version hrecord
  obtain ⟨-, htrue⟩ := h s version hrecord
  refine ⟨fun hfalse => ?_, fun hcas => ?_⟩
  · rw [hcas] at hfalse
    cases hfalse
  · rw [hplace]
    exact htrue hcas

/-- A record of another transition. -/
def Other (r : HeapState B) : Prop :=
  ∀ s version, r ≠ .bumpToUnsized s version

theorem Note.Unbumped.after {act : Access T B β} {b : β} (hact : act.By t { log := Other })
    (h : y.Unbumped) : (Note.after β act b y).Unbumped := by
  intro s version hrecord
  cases act with
  | storeLog u r => exact absurd rfl (hact.2 _ hrecord s version)
  | casWord o old new =>
    have hcas := h s version hrecord
    cases b with
    | none =>
      show y.cas.map _ = none
      rw [hcas]
      rfl
    | some w => exact hcas
  | _ => exact h s version hrecord

omit [Bracket B] in
theorem other_unsizedToSized (x : Option (Index B)) :
    Other (FromState.fromState (.unsizedToSized x c) : HeapState B) :=
  fun _ _ h => by cases h

variable [DecidableEq B] {Q : α → View T B × Note B → Prop}

/-- What a thread needs that may be stopped wherever `C` holds. -/
abbrev crashing (cfg : Config) (t : T) (C : View T B × Note B → Prop) :
    Local (Access T B) (View T B × Note B) :=
  Local.noting (pre cfg t) Note.after C

/-- A program that logs no bump. -/
theorem follow_unbumped {p : HeapCode T B α} {Q : α → View T B → Prop}
    (hp : p.follow (pre cfg t) Q v) (hlogs : p.Only (Act.By t { log := Other })) (hy : y.Unbumped) :
    p.follow (crashing cfg t (Stopped k)) (fun a x => Q a x.1 ∧ x.2.Unbumped) (v, y) :=
  follow_noting monotone_pre (fun _ _ _ _ hact h => h.after hact) (fun _ _ h => h.stopped) hlogs hp hy

/-- The range is linked, and becomes the unsized stack. -/
def extended (t : T) (n : ℕ) (i : Index B) (b : ℕ) (v : View T B) : View T B :=
  { v.linked t n i with head := update v.head none (some i), len := update v.len none b }

section Extend

variable {C : View T B × Note B → Prop} {b : ℕ} (hval : cfg.validate = false)

include hval

theorem follow_link_stopped {Q : Unit → View T B × Note B → Prop}
    (hown : ∀ j ∈ i.run n, v.place j = .unsized) (hC : ∀ v', v'.place = v.place → C (v', y))
    (h : Q () (v.linked t n i, y)) :
    (Slab.link cfg t none n i : HeapCode T B Unit).follow (crashing cfg t C) Q (v, y) := by
  induction n generalizing i v with
  | zero =>
    rw [linked_zero] at h
    exact h
  | succ n ih =>
    have hi : v.place i = .unsized := hown i (by simp [Index.run])
    rw [← linked_succ] at h
    simp only [Slab.link, Slab.own, hval, Bool.false_eq_true, if_false]
    refine ⟨hC v rfl, .inl ⟨hi, hC _ rfl, by simp [hi], ?_⟩⟩
    exact ih (fun j hj => hown j (by simp [Index.run, hj])) (fun v' hv' => hC v' hv') h

theorem follow_extend {f : Unit → HeapCode T B α} (hpos : n ≠ 0)
    (hown : ∀ j ∈ i.run n, v.place j = .unsized) (hC : ∀ v', v'.place = v.place → C (v', y))
    (h : (f ()).follow (crashing cfg t C) Q (v.extended t n i b, y)) :
    (Slab.link cfg t none n i >>= fun _ => Stack.set (.unsized t) (some i) b >>= f).follow
      (crashing cfg t C) Q (v, y) := by
  rw [follow_bind]
  refine follow_link_stopped hval hown hC ⟨hC _ rfl, rfl, .inl ⟨?_, hC _ rfl, none, rfl, h⟩⟩
  exact hown i (Index.mem_run.mpr (by omega))

end Extend

/-! ### The call -/

theorem follow_help_stopped {C : View T B × Note B → Prop} {γ : Type} {w : Word T γ}
    {f : Unit → HeapCode T B α} (hC : C (v, y))
    (h : (f ()).follow (crashing cfg t C) Q (v, y)) :
    (Detectable.help t w >>= f).follow (crashing cfg t C) Q (v, y) := by
  unfold Detectable.help
  split
  · exact h
  · exact ⟨hC, rfl, h⟩

theorem follow_addIndex_stopped {C : View T B × Note B → Prop}
    {Q : Index B → View T B × Note B → Prop} (hC : C (v, y))
    (h : ∀ j, j.value = i.value + n → j.value < 2 ^ 32 → Q j (v, y)) :
    (Heap.addIndex i n : HeapCode T B _).follow (crashing cfg t C) Q (v, y) := by
  unfold Heap.addIndex Index.add
  split_ifs with hlt
  · exact h _ rfl hlt
  · exact ⟨hC, fun _ _ _ => .inr rfl⟩

/-- The loop of the bump ends with a range. -/
theorem follow_bumpLoop {m : ℕ} {version : Version} {w : Word T (Option (Index B))}
    {Q : Option (Option (Index B)) → View T B × Note B → Prop} (hempty : v.head none = none)
    (hQ : ∀ s v', (s.getD .min).value + k < 2 ^ 32 →
      v.Gains {j | (s.getD .min).value ≤ j.value ∧ j.value < (s.getD .min).value + k} v' →
      Q (some s) (v', ⟨some (.bumpToUnsized s version), some true⟩))
    (hy : y.Unmoved) : (Detectable.updateLoop t .bump version (fun old version => do
      let new ← Heap.addIndex (old.getD .min) k
      pure (some (some new, .bumpToUnsized old version))) m w :
        HeapCode T B _).follow (crashing cfg t (Stopped k)) Q (v, y) := by
  induction m generalizing w y with
  | zero => exact ⟨hy.stopped hempty, fun _ _ _ => .inl rfl⟩
  | succ m ih =>
    have hlogged : (Note.mk (some (.bumpToUnsized w.inner version)) (some false) : Note B).Unmoved :=
      fun _ _ _ => by simp
    refine follow_help_stopped (hy.stopped hempty) ?_
    rw [follow_bind]
    show (Heap.addIndex (w.inner.getD .min) k >>= _).follow _ _ _
    rw [follow_bind]
    refine follow_addIndex_stopped (hy.stopped hempty) fun new hnew hlt => ?_
    refine ⟨hy.stopped hempty, rfl, hlogged.stopped hempty,
      fun w' => ih hlogged, ?_, hlt, fun v' hgains => hQ w.inner v' (hnew ▸ hlt) (hnew ▸ hgains)⟩
    show (w.inner.getD .min).value ≤ new.value
    omega

/-- `Shared::bump`. -/
theorem follow_bumpRange_stopped {Q : Index B × Index B → View T B × Note B → Prop}
    (hempty : v.head none = none)
    (hQ : ∀ s version finish v', finish.value = (s.getD .min).value + cfg.batchBump % 2 ^ 32 →
      finish.value < 2 ^ 32 →
      v.Gains {j | (s.getD .min).value ≤ j.value ∧ j.value < finish.value} v' →
      Q (s.getD .min, finish) (v', ⟨some (.bumpToUnsized s version), some true⟩))
    (hy : y.Unmoved) : (Heap.bumpRange cfg t : HeapCode T B _).follow
      (crashing cfg t (Stopped (cfg.batchBump % 2 ^ 32))) Q (v, y) := by
  have hC : Stopped (cfg.batchBump % 2 ^ 32) (v, y) := hy.stopped hempty
  unfold Heap.bumpRange
  show (Detectable.update cfg.retry t .bump _ >>= _).follow _ _ _
  rw [follow_bind]
  refine ⟨hC, fun version => ⟨hC, rfl, hC, fun w => ?_⟩⟩
  refine follow_bumpLoop hempty (fun s v' hlt hgains => ?_) hy
  show (Heap.addIndex (s.getD .min) _ >>= _).follow _ _ _
  rw [follow_bind]
  refine follow_addIndex_stopped (stopped_of_gained hlt fun j hj => ?_) fun finish hfinish hlt =>
    hQ s _ finish v' hfinish hlt (hfinish ▸ hgains)
  exact hgains.gained j (Index.mem_run.mp hj)

section Allocate

variable [LawfulBracket B] [DecidableEq T] {h : Option (Hand B)}

/-- Carving ends the time in which recovery finds the record of the bump. -/
theorem follow_carve_stopped (hc : isZero c = false) (hv : v.Good t h) (hi : v.head none = some i)
    (hy : Stopped k (v, y)) : (do
      let _ ← Heap.unsizedToSized t c
      lift (.record t (.unsizedToSized c))
      Heap.validateOwned cfg t
      Stack.peek (.sized t c) : HeapCode T B _).follow (crashing cfg t (Stopped k))
        (fun _ x => Stopped k x) (v, y) := by
  have hlogs : Built t { log := Other } (do
      let _ ← Heap.unsizedToSized t c
      lift (.record t (.unsizedToSized c))
      Heap.validateOwned cfg t
      Stack.peek (.sized t c) : HeapCode T B _) :=
    .bind (Heap.by_unsizedToSized trivial trivial other_unsizedToSized) fun _ =>
      .bind (.lift trivial) fun _ => .bind Heap.by_validateOwned fun _ => .lift trivial
  obtain ⟨key, hkey, hfollow⟩ :=
    (follow_carve (fun _ _ => trivial) hc hv : (do
      let _ ← Heap.unsizedToSized t c
      lift (.record t (.unsizedToSized c))
      Heap.validateOwned cfg t
      Stack.peek (.sized t c) : HeapCode T B _).follow (pre cfg t) (fun _ _ => True) v)
  obtain rfl : key = none := by
    cases key with
    | none => rfl
    | some c => cases hkey
  have hp : v.place i ≠ .away := by
    obtain ⟨⟨L, hok⟩, -⟩ := hv
    simp [hok.unsized_of_head hi]
  obtain ⟨-, hlogs⟩ := hlogs.only trivial
  specialize hlogs (v.head none)
  refine ⟨hy, none, rfl, ?_⟩
  simp only [hi] at hfollow hlogs ⊢
  -- the slab below the top is read, and then the record is another one
  obtain ⟨-, hfollow⟩ := hfollow.1 hp
  obtain ⟨-, hlogs⟩ := hlogs.2 (v.next i)
  refine ⟨hy, fun _ => ⟨hy, rfl, ?_⟩, fun haway => absurd haway hp⟩
  refine follow_mono monotone_pre.noting (follow_unbumped hfollow (hlogs ()) ?_)
    fun _ _ h => h.2.stopped
  exact fun _ _ heq => absurd (Option.some.inj heq) (other_unsizedToSized _ _ _)

/-- Wherever `Heap::allocate` is stopped, the record tells what recovery needs. -/
theorem follow_allocate_stopped (hval : cfg.validate = false) (hbatch : cfg.batchBump % 2 ^ 32 ≠ 0)
    (hv : v.Good t h) (hy : y.Unbumped) :
    (Heap.allocate cfg t c : HeapCode T B _).follow
      (crashing cfg t (Stopped (cfg.batchBump % 2 ^ 32)))
      (fun _ x => Stopped (cfg.batchBump % 2 ^ 32) x) (v, y) := by
  have hcarve := Heap.by_unsizedToSized (t := t) (r := { log := Other }) trivial trivial
    (other_unsizedToSized (B := B) (c := c))
  have hpop : Built t { log := Other } (Heap.sharedPop cfg t : HeapCode T B _) :=
    Heap.by_sharedPop fun _ _ _ _ h => by cases h
  have htop : Built t { log := Other } (do
      lift (.record t (.unsizedToSized c))
      Heap.validateOwned cfg t
      Stack.peek (.sized t c) : HeapCode T B _) :=
    .bind (.lift trivial) fun _ => .bind Heap.by_validateOwned fun _ => .lift trivial
  unfold Heap.allocate
  split_ifs with hc
  · exact hy.stopped
  have hc : isZero c = false := by simpa using hc
  rw [follow_bind]
  refine follow_mono monotone_pre.noting (follow_unbumped (Q := fun r v' => v'.Good t h ∧
    (r = false → v'.head none = none)) (follow_unsizedToSized hc hv (fun hempty => ⟨hv, fun _ => hempty⟩)
      fun v' hv' => ⟨hv', by simp⟩) (hcarve.only trivial) hy) ?_
  rintro r ⟨v, y⟩ ⟨⟨hv, hempty⟩, hy⟩
  cases r with
  | true =>
    refine follow_mono monotone_pre.noting (follow_unbumped (Q := fun _ _ => True) ?_
      (htop.only trivial) hy)
      fun _ _ h => h.2.stopped
    exact follow_validatePeek (fun _ _ => trivial) hv
  | false =>
    rw [if_neg (by simp), follow_bind]
    refine follow_mono monotone_pre.noting (follow_unbumped (Q := fun r v' =>
      (r = none → ∃ seen link, v' = { v with seen := seen, link := link }) ∧
        ∀ i, r = some i → v.Gains {i} v')
      (follow_sharedPop (fun seen link => ⟨fun _ => ⟨seen, link, rfl⟩, by simp⟩)
        fun i v' hgains => ⟨by simp, fun j hj => Option.some.inj hj ▸ hgains⟩)
      (hpop.only trivial) hy) ?_
    rintro r ⟨v', y⟩ ⟨⟨hnone, hsome⟩, hy⟩
    cases r with
    | some i =>
      refine ⟨hy.stopped, follow_mono monotone_pre.noting (follow_unbumped
        (follow_adopt (Q := fun _ _ => True) (fun _ _ => trivial) hc hv (hsome i rfl)) ?_ hy)
        fun _ _ h => h.2.stopped⟩
      exact Built.only (.bind (.pure _) fun _ => .bind Slab.by_own fun _ =>
        .bind (Stack.by_push rfl) fun _ => .bind hcarve fun _ => htop) trivial
    | none =>
      obtain ⟨seen, link, rfl⟩ := hnone rfl
      obtain ⟨⟨L, hok⟩, hhand⟩ := hv
      have hempty := hempty rfl
      show (Heap.bumpRange cfg t >>= _).follow _ _ _
      rw [follow_bind]
      refine follow_bumpRange_stopped hempty (fun s version finish v' hfinish hlt hgains => ?_) hy.unmoved
      rw [hfinish] at hlt hgains
      have hown : ∀ j ∈ (s.getD .min).run (cfg.batchBump % 2 ^ 32), v'.place j = .unsized :=
        fun j hj => hgains.gained j (Index.mem_run.mp hj)
      have hok' := (hok.forget v.hand seen link).adopt_range hbatch (Nat.mod_le _ _) hempty hgains
      refine ⟨stopped_of_gained hlt hown, ?_⟩
      show (Slab.link cfg t none (finish.value - (s.getD .min).value) (s.getD .min) >>= _).follow _ _ _
      rw [hfinish, Nat.add_sub_cancel_left]
      refine follow_extend hval hbatch hown (fun v'' hv'' => stopped_of_gained hlt (hv''.symm ▸ hown)) ?_
      exact follow_carve_stopped (i := s.getD .min) hc ⟨⟨_, hok'⟩, hgains.hand.trans hhand⟩
        (by simp [extended]) (stopped_of_gained hlt hown)

end Allocate

end View

namespace Lone

variable {T B : Type} [Bracket B]
  {t : T} {c : B} {cfg : Config} {x z : Lone T B} {y : View T B × View.Note B}

open HeapMem (allocating)

/-! ### The accesses of recovery -/

/-- The accesses that link a range. -/
def Links (β : Type) : Access T B β → Prop
  | .storeOwner _ _ => True
  | .storeNext _ _ => True
  | .storeHead _ _ => True
  | .storeLen _ _ => True
  | _ => False

theorem links_link (hval : cfg.validate = false) {n : ℕ} {i : Index B} :
    (Slab.link cfg t none n i : HeapCode T B Unit).Only Links := by
  induction n generalizing i with
  | zero => exact .pure _
  | succ n ih =>
    simp only [Slab.link, Slab.own, hval, Bool.false_eq_true, if_false]
    exact .bind (.lift trivial) fun _ => .bind (.lift trivial) fun _ => ih

theorem addIndex_of_lt {α : Type} {i : Index B} {n : ℕ} {f : Index B → HeapCode T B α}
    (h : i.value + n < 2 ^ 32) :
    (Heap.addIndex i n >>= f) = f ⟨i.value + n, Nat.add_pos_left i.pos n⟩ := by
  rw [Heap.addIndex, Index.add, if_pos h]
  rfl

variable [DecidableEq T] [Fintype T]

/-- The accesses of `detect` on `bump`. -/
def Looks (β : Type) : Access T B β → Prop
  | .loadHelp _ _ => True
  | .loadWord .bump => True
  | .scanHelp _ => True
  | .panic _ => True
  | _ => False

theorem looks_detect {version : Version} :
    (Detectable.detect t .bump version : HeapCode T B Bool).Only Looks := by
  refine .bind (.lift trivial) fun _ => .ite ⟨trivial, fun b => b.elim⟩ ?_
  exact .bind (.lift trivial) fun _ => .ite (.pure _) (.lift trivial)

variable [DecidableEq B]

theorem handle_of_fresh {β : Type} {act : Access T B β}
    (h : HeapMem.Fresh t β (.heap act) x.pool.mem) : handle cfg t β act x = access cfg t β act x :=
  if_pos h

theorem handle_links {β : Type} {act : Access T B β} (hact : Links β act)
    (e : Option Panic) : handle cfg t β act x ≠ .error e := by
  intro h
  cases act with
  | storeOwner i o | storeNext i o | storeHead s o | storeLen s n =>
    replace h := (handle_of_fresh (by exact trivial)).symm.trans h
    cases h
  | _ => exact hact.elim

theorem eq_of_looks {β : Type} {act : Access T B β} {b : β} (hact : Looks β act)
    (h : handle cfg t β act x = .ok (b, z)) : z = x := by
  cases act with
  | loadHelp u u' =>
    replace h := (handle_of_fresh (by exact trivial)).symm.trans h
    cases h
    rfl
  | loadWord o =>
    cases o with
    | bump =>
      replace h := (handle_of_fresh (by exact trivial)).symm.trans h
      cases h
      rfl
    | _ => exact hact.elim
  | scanHelp p =>
    replace h := (handle_of_fresh (by exact trivial)).symm.trans h
    cases h
    rfl
  | panic e =>
    replace h := (handle_of_fresh (by exact trivial)).symm.trans h
    cases h
  | _ => exact hact.elim

/-! ### What the thread knows -/

/-- The others keep the protocol, and the thread knows its view, its record and what came of it. -/
structure Knows (cfg : Config) (t : T) (y : View T B × View.Note B) (x : Lone T B) : Prop where
  others : (allocating cfg).Among (· ≠ t) x.pool
  own : HeapMem.Own t y.1 x.pool.mem
  record : x.pool.mem.log t = y.2.record
  cas : x.cas = y.2.cas

variable [LawfulBracket B]

omit [Fintype T] in
theorem Knows.stable (hbatch : cfg.batchBump % 2 ^ 32 ≠ 0) (e : Company T B cfg t) :
    Stable e.acts (Knows cfg t y) := by
  intro x z hxz hx
  obtain ⟨hcas, hrun⟩ := e.runs x z hxz
  obtain ⟨hothers, hrely⟩ := hx.others.without (HeapMem.calls_allocating hbatch) hrun
  exact ⟨hothers, HeapMem.stable_own _ _ hothers.inv hrely hx.own,
    HeapMem.stable_log _ _ hothers.inv hrely hx.record, hcas.trans hx.cas⟩

/-- An access keeps to the protocol. -/
theorem Knows.act {β : Type} {act : Access T B β} {C : View T B × View.Note B → Prop}
    {Q : β → View T B × View.Note B → Prop} {b : β} (hpre : View.crashing cfg t C β act Q y)
    (hx : Knows cfg t y x) (h : handle cfg t β act x = .ok (b, z)) :
    ∃ y', Q b y' ∧ Knows cfg t y' z := by
  rw [handle] at h
  split_ifs at h with hfresh
  rw [access] at h
  split at h
  · rename_i b' m hm
    obtain ⟨rfl, rfl⟩ := Prod.mk.inj (Except.ok.inj h)
    have hdoes : (allocating cfg).Does t (HeapMem.Own t y.1) (.heap act) _ :=
      HeapMem.does_act hpre.2
    obtain ⟨hinv, hguar, v, hQ, hown⟩ := (hdoes _ hx.others.inv hx.own).2 hfresh b' m hm
    refine ⟨_, hQ, hx.others.guar (fun _ hu => ⟨hu, hu⟩) hinv hguar, hown, ?_, ?_⟩
    · have hlog : m.log t = act.logged t y.2.record := by
        rw [← hx.record]
        exact (HeapMem.logged_handle hm t).1
      cases act with
      | storeLog u r => exact hlog.trans (if_pos hpre.2.1)
      | _ => exact hlog
    · show swapped x.cas act b' = _
      rw [hx.cas]
      cases act <;> rfl
  · cases h

/-- A program that can be followed may stop anywhere. -/
theorem Knows.runs {α : Type} (hbatch : cfg.batchBump % 2 ^ 32 ≠ 0) (e : Company T B cfg t)
    {C : View T B × View.Note B → Prop} {Q : α → View T B × View.Note B → Prop}
    {p : HeapCode T B α} (hp : p.follow (View.crashing cfg t C) Q y)
    (hQ : ∀ a y, Q a y → C y) (hx : Knows cfg t y x) :
    wpc (handle cfg t) e.acts p (fun a z => ∃ y, Q a y ∧ Knows cfg t y z)
      (fun z => ∃ y, C y ∧ Knows cfg t y z) (fun _ => True) x :=
  wpc_of_follow (fun _ => Knows.stable hbatch e) (fun _ _ _ _ _ hpre hx =>
    ⟨hpre.1, fun _ _ h => hx.act hpre h, fun _ _ => trivial⟩) hQ hp hx

/-! ### Recovery -/

section Recover

variable (e : Company T B cfg t) (hval : cfg.validate = false)
  (hbatch : cfg.batchBump % 2 ^ 32 ≠ 0) {s : Option (Index B)} {version : Version} {took : Bool}

include hval hbatch

/-- What a recovery leaves, and where it may be stopped itself. -/
theorem recover_stopped (hy : View.Stopped (cfg.batchBump % 2 ^ 32) y) (hx : Knows cfg t y x)
    (hrecord : y.2.record = some (.bumpToUnsized s version)) (hcas : y.2.cas = some took)
    (hd : e.Detects version x) :
    wpc (handle cfg t) e.acts (Heap.recover cfg t)
      (fun _ z => (took = false ∧ Knows cfg t y z) ∨
        (took = true ∧ (∀ j ∈ (s.getD .min).run (cfg.batchBump % 2 ^ 32), y.1.place j = .unsized) ∧
          Knows cfg t (y.1.extended t (cfg.batchBump % 2 ^ 32) (s.getD .min) cfg.batchBump, y.2) z))
      (fun z => ∃ y', (View.Stopped (cfg.batchBump % 2 ^ 32) y' ∧ y'.2 = y.2) ∧ Knows cfg t y' z)
      (fun _ => False) x := by
  have hstable : ∀ y, Stable e.acts (Knows cfg t y) := fun y => Knows.stable hbatch e
  refine wpc_access fun z hz => ⟨⟨y, ⟨hy, rfl⟩, hstable y x z hz hx⟩, ?_⟩
  have hload : handle cfg t _ (.loadLog t) z = .ok (some (.bumpToUnsized s version), z) := by
    rw [← hrecord, ← (hstable y x z hz hx).record]
    exact handle_of_fresh (by exact trivial)
  rw [hload]
  refine wpc_stable e.trans x z hz ?_
  show wpc _ _ (Detectable.detect t .bump version >>= _) _ _ _ x
  refine (wpc_bind e.refl e.trans).mpr (wpc_mono (wpc_and hd (wpc_of_only looks_detect (hstable y)
    (fun β act x b z hact hx h => eq_of_looks hact h ▸ hx) hx)) (fun _ _ h => h) ?_
    (fun z h => ⟨y, ⟨hy, rfl⟩, h.2⟩) fun _ h => h.1)
  rintro took' z ⟨htook, hz⟩
  obtain rfl : took' = took :=
    Option.some.inj (htook.symm.trans (hx.cas.trans hcas))
  cases took' with
  | false =>
    intro z' hz'
    have hz := hstable y z z' hz' hz
    exact ⟨⟨y, ⟨hy, rfl⟩, hz⟩, .inl ⟨rfl, hz⟩⟩
  | true =>
    obtain ⟨hlt, hown⟩ := (hy s version hrecord).2 hcas
    have hfollow := View.follow_extend (t := t) (y := y.2) (b := cfg.batchBump)
      (C := fun y' => View.Stopped (cfg.batchBump % 2 ^ 32) y' ∧ y'.2 = y.2)
      (Q := fun (_ : Unit) y' => y' = (y.1.extended t _ (s.getD .min) cfg.batchBump, y.2))
      (f := pure) hval hbatch hown (fun v' hv' => ⟨hy.congr hcas hv', rfl⟩) rfl
    rw [bind_pure] at hfollow
    have hlinks := (links_link (t := t) (B := B) hval (n := cfg.batchBump % 2 ^ 32)
      (i := s.getD .min)).bind fun _ => (.bind (.lift trivial) fun _ => .lift trivial :
        (Stack.set (.unsized t) (some (s.getD .min)) cfg.batchBump :
          HeapCode T B Unit).Only Links)
    rw [if_pos rfl]
    show wpc _ _ (Heap.addIndex (s.getD .min) _ >>= _) _ _ _ z
    rw [addIndex_of_lt hlt]
    dsimp only
    rw [Nat.add_sub_cancel_left]
    refine wpc_mono (wpc_total hlinks (fun _ _ _ e hact => handle_links hact e)
      (hz.runs hbatch e hfollow ?_)) (fun _ _ h => h) ?_
      (fun _ h => h) fun _ h => h
    · rintro _ _ rfl
      exact ⟨hy.congr hcas rfl, rfl⟩
    · rintro _ z ⟨_, rfl, hz⟩
      exact .inr ⟨rfl, hown, hz⟩

end Recover

/-- The thread's unsized stack is the `n` slabs from `first` on, in ascending order and owned by
it, and nobody else has one of them: they are noted to be with the thread, they are neither on the
global stack nor on a stack of a thread between two calls, and none of their blocks is anywhere. -/
structure BumpRecovered (t : T) (first : Index B) (n : ℕ)
    (w : Pool T (HeapAct T B) (HeapMem T B)) : Prop where
  chain : Seg w.mem.next (w.mem.head (.unsized t)) (first.run n) none
  owner : ∀ i ∈ first.run n, w.mem.owner i = some t
  len : w.mem.len (.unsized t) = n
  place : ∀ i ∈ first.run n, w.mem.place i = .unsized t
  shared : ∀ xs, Seg w.mem.next w.mem.global.inner xs none → ∀ i ∈ first.run n, i ∉ xs
  alone : ∀ u, u ≠ t → w.prog u = .ret () → ∀ k xs, Seg w.mem.next (w.mem.head (.of u k)) xs none →
    ∀ i ∈ first.run n, i ∉ xs
  blocks : ∀ i ∈ first.run n, ∀ b, w.mem.block i b = .gone

omit [LawfulBracket B] [Fintype T] in
theorem Knows.recovered {v : View T B} {first : Index B} {n : ℕ} {note : View.Note B} (hn : n ≠ 0)
    (hown : ∀ i ∈ first.run n, v.place i = .unsized)
    (hx : Knows cfg t (v.extended t n first n, note) x) : BumpRecovered t first n x.pool := by
  have hm : x.pool.mem.Sound := hx.others.inv
  have hplace : ∀ i ∈ first.run n, x.pool.mem.place i = .unsized t :=
    fun i hi => hx.own.unsized.mp (hown i hi)
  have hagrees : ∀ i ∈ first.run n, ((v.extended t n first n).hold i).Agrees (x.pool.mem.slab i) :=
    fun i hi => hx.own.agrees (by simp [View.extended, View.linked, hown i hi])
  refine ⟨?_, fun i hi => ?_, ?_, hplace, fun xs hseg i hi hmem => ?_,
    fun u hu hidle k xs hseg i hi hmem => ?_,
    fun i hi b => ?_⟩
  · have hseg : Seg (v.extended t n first n).next (if n = 0 then none else some first)
        (first.run n) none := Index.seg_run fun j hj => if_pos hj
    have hhead : x.pool.mem.head (.unsized t) = some first :=
      (hx.own.head none).trans (by simp [View.extended])
    rw [if_neg hn, ← hhead] at hseg
    exact hseg.congr fun i hi => (hagrees i hi).next
  · exact (hagrees i hi).owner.trans (if_pos hi)
  · exact (hx.own.len none).trans (by simp [View.extended])
  · obtain ⟨slabs, hslabs, hglobal⟩ := hm.stack
    obtain rfl := hseg.unique hslabs
    have hp := (hglobal i).mp hmem
    rw [hplace i hi] at hp
    cases hp
  · obtain ⟨L, hL, -, hunsized, hsized⟩ := HeapMem.Rest.stacks (hx.others.rest hu hidle) hm
    obtain rfl := hseg.unique (hL k)
    have hp := hplace i hi
    cases k with
    | none =>
      rw [(hunsized i).mp hmem] at hp
      exact hu (SlabPlace.unsized.inj hp)
    | some c =>
      rw [((hsized c i).mp hmem).1] at hp
      cases hp
  · exact (hm.slab i).gone (SlabState.not_carved_unsized (hplace i hi)) b

/-- **A crash while new slabs are taken is recovered, however often the recovery is cut off** and
whatever the other threads allocate and free meanwhile, if the number of slabs fits into 32 bits. -/
theorem bumpToUnsized_recovers (e : Company T B cfg t) {w : Pool T (HeapAct T B) (HeapMem T B)}
    (hrun : ReflTransGen (Pool.Steps (HeapMem.system cfg) HeapMem.Fresh) (Pool.idle .zeroed) w)
    (hidle : w.prog t = .ret ()) (hval : cfg.validate = false) (hpos : 1 ≤ cfg.batchBump)
    (hfits : cfg.batchBump < 2 ^ 32)
    (hstop : Stops (handle cfg t) e.acts (Heap.allocate cfg t c) ⟨w, none⟩ x)
    {s : Option (Index B)} {version : Version} {took : Bool}
    (hlog : x.pool.mem.log t = some (.bumpToUnsized s version)) (hcas : x.cas = some took)
    (hagain : ReflTransGen e.Recrashes x z) (hdetect : e.Detects version z) :
    wpc (handle cfg t) e.acts (Heap.recover cfg t)
      (fun _ z' => if took then BumpRecovered t (s.getD .min) cfg.batchBump z'.pool
        else z'.pool.mem.head (.unsized t) = none)
      (fun _ => True) (fun _ => False) z := by
  have hmod : cfg.batchBump % 2 ^ 32 = cfg.batchBump := Nat.mod_eq_of_lt hfits
  have hbatch : cfg.batchBump % 2 ^ 32 ≠ 0 := by omega
  have hgood := HeapMem.good_of_run hbatch hrun
  obtain ⟨v, L, hok, hhand, hown⟩ := hgood.rest trivial hidle
  have hstart : Knows cfg t (v, ⟨w.mem.log t, none⟩) ⟨w, none⟩ :=
    ⟨⟨hgood.inv, fun u _ => hgood.keeps u trivial⟩, hown, rfl, rfl⟩
  have hcrash := wpc_stops (hstart.runs hbatch e (View.follow_allocate_stopped hval hbatch
    ⟨⟨L, hok⟩, hhand⟩ fun _ _ _ => rfl) fun _ _ h => h) hstop
  -- each recovery that is cut off leaves what the crash left
  have hagain : ∃ y, View.Stopped (cfg.batchBump % 2 ^ 32) y ∧ Knows cfg t y z ∧
      y.2.record = some (.bumpToUnsized s version) ∧ y.2.cas = some took := by
    clear hdetect
    induction hagain with
    | refl =>
      obtain ⟨y, hy, hx⟩ := hcrash
      exact ⟨y, hy, hx, hx.record.symm.trans hlog, hx.cas.symm.trans hcas⟩
    | tail _ hagain ih =>
      obtain ⟨y, hy, hx, hrecord, hcas⟩ := ih
      have hd := hagain.1 s version (hx.record.trans hrecord)
      obtain ⟨y', ⟨hy', hsame⟩, hx'⟩ :=
        wpc_stops (recover_stopped e hval hbatch hy hx hrecord hcas hd) hagain.2
      exact ⟨y', hy', hx', hsame ▸ hrecord, hsame ▸ hcas⟩
  obtain ⟨y, hy, hx, hrecord, hcas⟩ := hagain
  refine wpc_mono (recover_stopped e hval hbatch hy hx hrecord hcas hdetect) (fun _ _ h => h) ?_
    (fun _ _ => trivial) fun _ h => h
  rintro - z' (⟨rfl, hz⟩ | ⟨rfl, hown, hz⟩)
  · exact (hz.own.head none).trans ((hy s version hrecord).1 hcas)
  · rw [hmod] at hown hz
    exact hz.recovered (by omega) hown

/-! ### The first allocation -/

/-- The knobs as they are, with `b` slabs to a bump. -/
def bumpBy (b : ℕ) : Config :=
  { Config.initial false with batchBump := b }

/-- Thread 1 has taken the slabs 1 and 2, and is about to link them. -/
def linking : Pool (Fin 2) (HeapAct (Fin 2) Large) (HeapMem (Fin 2) Large) :=
  (Pool.play (HeapMem.system (bumpBy 2)) HeapMem.Fresh [.call 1 (.allocate ⟨8⟩), .go 1 9]
    (Pool.idle .zeroed)).getD (Pool.idle .zeroed)

/-- Thread 0 stops after `n` accesses of an allocation. -/
def bumping (b n : ℕ) (w : Pool (Fin 2) (HeapAct (Fin 2) Large) (HeapMem (Fin 2) Large)) :
    Lone (Fin 2) Large :=
  stopAt (handle (bumpBy b) 0) n (Heap.allocate (bumpBy b) 0 ⟨8⟩) ⟨w, none⟩

omit [LawfulBracket B] in
theorem Company.detects_idle {version : Version} {took : Bool}
    (hd : ((Detectable.detect t .bump version).exec (handle cfg t) x).toOption.any
      (fun r => r.1 = took) = true) (hcas : x.cas = some took) :
    (Company.idle cfg t).Detects version x := by
  obtain ⟨⟨_, _⟩, hexec, rfl⟩ := exists_of_ok hd
  exact wpc_of_wp (wp_of_exec hexec hcas)

set_option maxRecDepth 4000 in
/-- Thread 0 takes the slabs 3 and 4 and stops before they are linked; the recovery is cut off after
the first link, and then done again. -/
theorem bumpToUnsized_recovers_twice : (bumping 2 9 linking).cas = some true ∧
    wpc (handle (bumpBy 2) 0) (Company.idle (bumpBy 2) 0).acts (Heap.recover (bumpBy 2) 0)
      (fun _ z => if true then BumpRecovered 0 ⟨3, Nat.succ_pos 2⟩ 2 z.pool
        else z.pool.mem.head (.unsized 0) = none)
      (fun _ => True) (fun _ => False)
      (stopAt (handle (bumpBy 2) 0) 5 (Heap.recover (bumpBy 2) 0) (bumping 2 9 linking)) := by
  let crashed := bumping 2 9 linking
  let again := stopAt (handle (bumpBy 2) 0) 5 (Heap.recover (bumpBy 2) 0) crashed
  have hrun : ReflTransGen (Pool.Steps (HeapMem.system (bumpBy 2)) HeapMem.Fresh)
      (Pool.idle .zeroed) linking :=
    Pool.play_trans .refl [.call 1 (.allocate ⟨8⟩), .go 1 9] rfl
  have hlog : crashed.pool.mem.log 0 = some (.bumpToUnsized (some ⟨3, Nat.succ_pos 2⟩) 1) := by
    decide +kernel
  have hcas : crashed.cas = some true := by decide +kernel
  have hfirst : (Company.idle (bumpBy 2) 0).Detects 1 crashed :=
    Company.detects_idle (by decide +kernel) hcas
  have hsecond : (Company.idle (bumpBy 2) 0).Detects 1 again :=
    have hagain : again.cas = some true := by decide +kernel
    Company.detects_idle (by decide +kernel) hagain
  refine ⟨hcas, bumpToUnsized_recovers _ hrun rfl rfl (by decide) (by decide)
    (stops_stopAt (Company.idle _ 0).refl 9 _ _) hlog hcas (.single ⟨fun s v h => ?_,
      stops_stopAt (Company.idle _ 0).refl 5 _ _⟩) hsecond⟩
  cases hlog.symm.trans h
  exact hfirst

set_option maxRecDepth 4000 in
/-- With `2 ^ 32 + 1` slabs to a bump one slab is taken, and the length of the stack is
recorded as `2 ^ 32 + 1`. -/
theorem bumpToUnsized_truncated : let x := bumping (2 ^ 32 + 1) 7 (Pool.idle .zeroed)
    x.pool.mem.log 0 = some (.bumpToUnsized none 1) ∧ x.cas = some true ∧
    (Company.idle (bumpBy (2 ^ 32 + 1)) 0).Detects 1 x ∧
    ∃ z, (Heap.recover (bumpBy (2 ^ 32 + 1)) 0).exec (handle (bumpBy (2 ^ 32 + 1)) 0) x = .ok ((), z) ∧
      z.pool.mem.head (.unsized 0) = some .min ∧ z.pool.mem.next .min = none ∧
      z.pool.mem.len (.unsized 0) = 2 ^ 32 + 1 ∧ ¬ BumpRecovered 0 .min (2 ^ 32 + 1) z.pool := by
  intro x
  have hcas : x.cas = some true := by decide +kernel
  have hrun : ((Heap.recover (bumpBy (2 ^ 32 + 1)) 0).exec (handle (bumpBy (2 ^ 32 + 1)) 0)
      x).toOption.any (fun r => r.2.pool.mem.head (.unsized 0) = some .min ∧
        r.2.pool.mem.next .min = none ∧ r.2.pool.mem.len (.unsized 0) = 2 ^ 32 + 1) = true := by
    decide +kernel
  obtain ⟨⟨_, z⟩, hrun, hhead, hnext, hlen⟩ := exists_of_ok hrun
  refine ⟨by decide +kernel, hcas, Company.detects_idle (by decide +kernel) hcas, z, hrun, hhead,
    hnext, hlen, fun h => ?_⟩
  -- the stack ends after its first slab
  have hone : Seg z.pool.mem.next (z.pool.mem.head (.unsized 0)) [.min] none := ⟨hhead, hnext⟩
  have hlength := congrArg List.length (h.chain.unique hone)
  rw [Index.length_run] at hlength
  simp at hlength

end Lone

end Cxlalloc
