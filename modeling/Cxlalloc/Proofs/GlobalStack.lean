/-
The global stack loses and duplicates no slab, as long as the versions last.

`Once` is the invariant: the slabs on the chain from the head are held by nobody, and every
other slab is held by exactly one thread.  A thread that pushes knows the links of the slabs it
holds, since only the holder of a slab writes its link.  A thread that pops has read the head
`w` and then the link behind its slab.  What it knows of that link is conditional (`Read`): if
the head is still `w`, the link is still the same.  The others keep that, because they do not
write the link of a slab on the chain, and do not bring `w` back once it is gone (`Fresh`).

Why they do not is a matter of versions.  The version of a head is the number of the update that
wrote it, as far as 16 bits hold it (`Dated`), if no thread is set back in its count.  A thread
that writes a head `w` which another has read had written `w` before, in an earlier update, so it
has begun 2^16 updates since.
-/
import Cxlalloc.GlobalStack
import Cxlalloc.Proofs.Detectables

namespace Cxlalloc

open Lib
open Lib.Prog (lift)
open Lib.Protocol
open Function (update update_self update_of_ne)
open Relation

/-- An access to the head. -/
def Act.onHead {T B R β : Type} [Bracket B] : Act T B R β → Bool
  | .loadWord .global => true
  | .storeWord .global _ => true
  | .casWord .global _ _ => true
  | _ => false

section Accesses

variable {T B R β : Type} [Bracket B] [DecidableEq T] [DecidableEq B] {act : Act T B R β} {b : β}
  {m m' : Mem T B R}

/-- Another access leaves the head, and most leave the links. -/
theorem Mem.frame_handle (h : Mem.handle β act m = .ok (b, m')) :
    (act.onHead = false → m'.global = m.global) ∧ (act.apart = true → m'.next = m.next) := by
  cases act with
  | storeNext i v =>
    obtain ⟨-, rfl⟩ := ok_inj h
    exact ⟨fun _ => rfl, fun hact => by cases hact⟩
  | storeWord o w =>
    obtain ⟨-, rfl⟩ := ok_inj h
    cases o with
    | global => exact ⟨fun hact => (by cases hact), fun _ => rfl⟩
    | _ => exact ⟨fun _ => rfl, fun _ => rfl⟩
  | casWord o old new =>
    rw [Mem.handle] at h
    split at h
    · obtain ⟨-, rfl⟩ := ok_inj h
      cases o with
      | global => exact ⟨fun hact => (by cases hact), fun _ => rfl⟩
      | _ => exact ⟨fun _ => rfl, fun _ => rfl⟩
    · obtain ⟨-, rfl⟩ := ok_inj h
      exact ⟨fun _ => rfl, fun _ => rfl⟩
  | check p e =>
    rw [Mem.handle] at h
    split at h
    · obtain ⟨-, rfl⟩ := ok_inj h
      exact ⟨fun _ => rfl, fun _ => rfl⟩
    · cases h
  | panic e => cases h
  | _ =>
    obtain ⟨-, rfl⟩ := ok_inj h
    exact ⟨fun _ => rfl, fun _ => rfl⟩

/-- What is noted of the updates is next to the memory. -/
theorem Watched.toMem_handle {act : Access T B β} {t : T} {m m' : Watched T B}
    (h : Watched.handle t β act m = .ok (b, m')) : Mem.handle β act m.toMem = .ok (b, m'.toMem) := by
  rw [Watched.handle] at h
  split at h
  · rename_i b' x hx
    obtain ⟨rfl, rfl⟩ := ok_inj h
    rw [hx]
    cases act with
    | storeHelp =>
      unfold Watched.note
      split <;> rfl
    | casWord => cases b' <;> rfl
    | _ => rfl
  · cases h

end Accesses

namespace StackMem

variable {T B : Type} [Bracket B] {m m' : StackMem T B} {t u : T} {i tail : Index B}
  {front slabs : List (Index B)} {w : Word T (Option (Index B))}

/-! ### The invariant -/

/-- Every slab is on the global stack, once, or held by exactly one thread. -/
structure Once (m : StackMem T B) (slabs : List (Index B)) : Prop where
  seg : Seg m.next m.global.inner slabs none
  nodup : slabs.Nodup
  on : ∀ i ∈ slabs, m.held i = []
  off : ∀ i, i ∉ slabs → ∃ t, m.held i = [t]

/-- The slabs on the global stack are all there, and nobody holds one of them. -/
def Sound (m : StackMem T B) : Prop :=
  ∃ slabs, m.Once slabs

theorem Once.notMem (h : m.Once slabs) (hi : m.held i = [t]) : i ∉ slabs := by
  intro hmem
  rw [h.on i hmem] at hi
  cases hi

/-- Nobody holds the slab on top. -/
theorem Sound.held_head (hm : m.Sound) (hi : m.global.inner = some i) : m.held i = [] := by
  obtain ⟨slabs, h⟩ := hm
  refine h.on i ?_
  have hseg := h.seg
  rw [hi] at hseg
  cases slabs with
  | nil => cases hseg
  | cons j slabs =>
    obtain rfl := Option.some.inj hseg.1
    exact List.mem_cons_self

/-- What a step of `u` does. -/
structure Acts (u : T) (m m' : StackMem T B) : Prop where
  next : ∀ i, m'.next i = m.next i ∨ m.held i = [u]
  held : ∀ t, t ≠ u → ∀ i, m.held i = [t] → m'.held i = [t]
  job : ∀ t, t ≠ u → m'.job t = m.job t
  head : m'.global = m.global ∨ ∀ t, t ≠ u → m.popping t ≠ some m'.global

theorem Acts.refl (u : T) (m : StackMem T B) : Acts u m m where
  next _ := .inl rfl
  held _ _ _ h := h
  job _ _ := rfl
  head := .inl rfl

/-- A thread holds its slabs and their links. -/
theorem Acts.next_eq (h : Acts u m m') (hu : u ≠ t) (hi : m.held i = [t]) :
    m'.next i = m.next i := by
  refine (h.next i).resolve_right fun h' => ?_
  rw [hi] at h'
  exact hu (List.cons.inj h').1.symm

/-! ### The protocol -/

/-- No compare-exchange brings back a head that a pop is about to compare with. -/
def Fresh : Guard T (Access T B) (StackMem T B) :=
  fun t _ act m =>
    match act with
    | .casWord .global old new => m.global = old → ∀ u, u ≠ t → m.popping u ≠ some new
    | _ => True

variable [DecidableEq T] [DecidableEq B] {cfg : Config} {α β : Type}
  {J J' : StackMem T B → Prop}

/-- How threads share the global stack. -/
def sharing (cfg : Config) :
    Protocol (system cfg : System T (Access T B) (StackMem T B) Panic) Fresh :=
  ofSteps _ _ Sound Acts (fun _ _ _ _ => True) (fun _ _ => True) Acts.refl

theorem stable (h : ∀ u m m', u ≠ t → m.Sound → m'.Sound → Acts u m m' → J m → J m') :
    (sharing cfg).Stable t J :=
  stable_ofSteps h

theorem stable_true : (sharing cfg).Stable t fun _ : StackMem T B => True :=
  fun _ _ _ _ _ => trivial

/-- What a thread is about is its own. -/
theorem stable_job {p : Job T B → Prop} :
    (sharing cfg).Stable t fun m : StackMem T B => p (m.job t) :=
  stable fun u m m' hu _ _ hacts h => by rwa [hacts.job t hu.symm]

theorem does {act : Access T B β} {J' : β → StackMem T B → Prop}
    (h : ∀ m b m', m.Sound → J m → Fresh t β act m → handle t β act m = .ok (b, m') →
      m'.Sound ∧ Acts t m m' ∧ J' b m') : (sharing cfg).Does t J act J' :=
  fun m hm hJ => ⟨trivial, fun hfresh b m' hb => h m b m' hm hJ hfresh hb⟩

theorem keeps_panic {e : Panic} {Q : α → StackMem T B → Prop} :
    (sharing cfg).Keeps t (panic e) Q m :=
  fun _ _ _ => ⟨trivial, fun _ b => b.elim⟩

section Accesses

variable {act : Access T B β} {b : β}

omit [DecidableEq B] in
theorem toWatched_swaps : (m.swaps t w).toWatched = m.toWatched := by
  unfold swaps
  split <;> rfl

omit [DecidableEq B] in
theorem toWatched_note : (m.note t act b).toWatched = m.toWatched := by
  have hreads : ∀ w, (m.reads t w).toWatched = m.toWatched := fun w => by
    unfold reads
    split <;> rfl
  cases act with
  | loadWord o => cases o <;> first | rfl | exact hreads _
  | storeWord o => cases o <;> rfl
  | casWord o old new =>
    cases o with
    | global =>
      cases b with
      | none => exact toWatched_swaps
      | some w => exact hreads w
    | _ => cases b <;> rfl
  | _ => rfl

omit [DecidableEq B] in
theorem note_of_onHead (hact : act.onHead = false) : m.note t act b = m := by
  cases act with
  | loadWord o => cases o <;> first | rfl | cases hact
  | storeWord o => cases o <;> first | rfl | cases hact
  | casWord o => cases o <;> first | (cases b <;> rfl) | cases hact
  | _ => rfl

/-- What is noted of the stack is next to what is noted of the updates. -/
theorem handle_eq (h : handle t β act m = .ok (b, m')) : ∃ x : Watched T B,
    Watched.handle t β act m.toWatched = .ok (b, x) ∧ m' = { m with toWatched := x }.note t act b := by
  rw [handle] at h
  split at h
  · rename_i b' x hx
    obtain ⟨rfl, rfl⟩ := ok_inj h
    exact ⟨x, hx, rfl⟩
  · cases h

theorem toWatched_handle (h : handle t β act m = .ok (b, m')) :
    Watched.handle t β act m.toWatched = .ok (b, m'.toWatched) := by
  obtain ⟨x, hx, rfl⟩ := handle_eq h
  rw [toWatched_note, hx]

end Accesses

/-- What is noted of the stack is as it was, and so is the head. -/
structure Same (m m' : StackMem T B) : Prop where
  global : m'.global = m.global
  held : m'.held = m.held
  job : m'.job = m.job
  written : m'.written = m.written
  read : m'.read = m.read

/-- What is known depends on the links and on what is noted of the stack. -/
def Quiet (J : StackMem T B → Prop) : Prop :=
  ∀ m m', Same m m' → m'.next = m.next → J m → J m'

omit [DecidableEq T] [DecidableEq B] in
theorem Sound.quiet : Quiet (Sound : StackMem T B → Prop) := by
  rintro m m' hsame hnext ⟨slabs, h⟩
  refine ⟨slabs, ?_, h.nodup, ?_, ?_⟩
  · rw [hnext, hsame.global]
    exact h.seg
  · rw [hsame.held]
    exact h.on
  · rw [hsame.held]
    exact h.off

omit [DecidableEq T] [DecidableEq B] in
theorem Same.acts (h : Same m m') (hnext : m'.next = m.next) : Acts t m m' where
  next i := .inl (congrFun hnext i)
  held _ _ _ hi := by rw [h.held, hi]
  job _ _ := by rw [h.job]
  head := .inl h.global

theorem same_of_handle {act : Access T B β} {b : β} (hact : act.onHead = false)
    (h : handle t β act m = .ok (b, m')) : Same m m' := by
  have hframe := (Mem.frame_handle (Watched.toMem_handle (toWatched_handle h))).1 hact
  obtain ⟨x, -, rfl⟩ := handle_eq h
  rw [note_of_onHead hact] at hframe ⊢
  exact ⟨hframe, rfl, rfl, rfl, rfl⟩

theorem next_of_handle {act : Access T B β} {b : β} (hact : act.apart = true)
    (h : handle t β act m = .ok (b, m')) : m'.next = m.next :=
  (Mem.frame_handle (Watched.toMem_handle (toWatched_handle h))).2 hact

theorem does_quiet {act : Access T B β} (hhead : act.onHead = false)
    (hapart : act.apart = true) (hJ : Quiet J) : (sharing cfg).Does t J act fun _ => J := by
  refine does fun m b m' hm hj _ h => ?_
  have hsame := same_of_handle hhead h
  have hnext := next_of_handle hapart h
  exact ⟨hm.quiet m m' hsame hnext, hsame.acts hnext, hJ m m' hsame hnext hj⟩

theorem keeps_help (hstable : (sharing cfg).Stable t J) (hJ : Quiet J) (hm : J m) :
    (sharing cfg).Keeps t (Detectable.help t w) (fun _ => J) m :=
  Detectable.keeps_help hstable hstable (fun _ _ _ h => h) (fun _ _ => does_quiet rfl rfl hJ) hm

/-! ### Links -/

omit [DecidableEq T] [DecidableEq B] in
/-- Who holds a slab may link it. -/
theorem Sound.link (hm : m.Sound) (hi : m.held i = [t]) (v : Option (Index B)) :
    ({ m with next := update m.next i v } : StackMem T B).Sound := by
  obtain ⟨slabs, h⟩ := hm
  exact ⟨slabs, { h with seg := h.seg.update_off (h.notMem hi) }⟩

omit [DecidableEq T] [DecidableEq B] in
theorem acts_link (hi : m.held i = [t]) (v : Option (Index B)) :
    Acts t m { m with next := update m.next i v } := by
  refine { Acts.refl t m with next := fun j => ?_ }
  by_cases hj : j = i
  · subst hj
    exact .inr hi
  · exact .inl (update_of_ne hj _ _)

/-! ### `push` -/

omit [Bracket B] [DecidableEq B] in
theorem batch_ne_nil (front : List (Index B)) (tail : Index B) : front ++ [tail] ≠ [] := by simp

/-- The slab on top of a batch. -/
abbrev top (front : List (Index B)) (tail : Index B) : Index B :=
  (front ++ [tail]).head (batch_ne_nil front tail)

/-- Thread `t` pushes the slabs in `front`, one linked to the next, and `tail` behind them. -/
structure Pushes (t : T) (front : List (Index B)) (tail : Index B) (m : StackMem T B) : Prop where
  job : m.job t = .push (front ++ [tail])
  held : ∀ i ∈ front ++ [tail], m.held i = [t]
  seg : Seg m.next (top front tail) front (some tail)

omit [DecidableEq T] [DecidableEq B] in
theorem Pushes.held_tail (h : Pushes t front tail m) : m.held tail = [t] :=
  h.held tail (by simp)

omit [DecidableEq T] [DecidableEq B] in
theorem Pushes.acts (h : Pushes t front tail m) (hu : u ≠ t) (hacts : Acts u m m') :
    Pushes t front tail m' := by
  refine ⟨?_, fun i hi => hacts.held t hu.symm i (h.held i hi), ?_⟩
  · rw [hacts.job t hu.symm]
    exact h.job
  · exact h.seg.congr fun i hi => hacts.next_eq hu (h.held i (List.mem_append_left _ hi))

theorem stable_pushes : (sharing cfg).Stable t (Pushes t front tail : StackMem T B → Prop) :=
  stable fun _ _ _ hu _ _ hacts h => h.acts hu hacts

variable {v : Option (Index B)}

/-- The batch is linked to what is to be below it. -/
theorem stable_linked {p : Prop} : (sharing cfg).Stable t
    fun m : StackMem T B => Pushes t front tail m ∧ m.next tail = v ∧ p := by
  refine stable fun u m m' hu _ _ hacts h => ⟨h.1.acts hu hacts, ?_, h.2.2⟩
  rw [hacts.next_eq hu h.1.held_tail]
  exact h.2.1

omit [DecidableEq T] [DecidableEq B] in
theorem quiet_pushes : Quiet (Pushes t front tail : StackMem T B → Prop) :=
  fun _ _ hsame hnext h => ⟨hsame.job ▸ h.job, hsame.held ▸ h.held, hnext ▸ h.seg⟩

theorem does_linkTail (hnodup : (front ++ [tail]).Nodup) :
    (sharing cfg).Does t (Pushes t front tail) (.storeNext tail v) fun _ m =>
      Pushes t front tail m ∧ m.next tail = v := by
  refine does fun m b m' hm h _ ha => ?_
  obtain ⟨-, rfl⟩ := ok_inj ha
  have hfront : tail ∉ front := by
    intro hmem
    exact (List.disjoint_of_nodup_append hnodup) hmem (List.mem_singleton_self tail)
  exact ⟨hm.link h.held_tail v, acts_link h.held_tail v,
    { h with seg := h.seg.update_off hfront }, update_self _ _ _⟩

/-- The memory after a compare-exchange of the head `w`. -/
def swapped (t : T) (m : StackMem T B) (w new : Word T (Option (Index B))) : StackMem T B :=
  { ({ m with global := new, pending := update m.pending t false } : StackMem T B).swaps t w with
    written := m.begun t }

variable {new : Word T (Option (Index B))}

theorem handle_casWord :
    handle t _ (.casWord .global w new) m =
      if m.global = w then .ok (none, m.swapped t w new)
      else .ok (some m.global, m.reads t m.global) := by
  by_cases hw : m.global = w
  · simp [handle, Watched.handle, Watched.note, Mem.handle, note, Heap.word, Heap.setWord, hw, swapped]
  · simp [handle, Watched.handle, Watched.note, Mem.handle, note, Heap.word, hw]

/-- The memory after a push. -/
def pushed (t : T) (m : StackMem T B) (slabs : List (Index B)) (new : Word T (Option (Index B))) :
    StackMem T B :=
  { m with
    global := new
    pending := update m.pending t false
    held := fun i => if i ∈ slabs then (m.held i).erase t else m.held i
    job := update m.job t .other
    written := m.begun t }

omit [DecidableEq B] in
/-- The batch goes on top of the stack. -/
theorem Sound.pushed (hm : m.Sound) (h : Pushes t front tail m) (hnodup : (front ++ [tail]).Nodup)
    (hlink : m.next tail = m.global.inner) (hnew : new.inner = some (top front tail)) :
    (m.pushed t (front ++ [tail]) new).Sound := by
  obtain ⟨slabs, honce⟩ := hm
  have hbatch : ∀ i ∈ front ++ [tail], (m.pushed t (front ++ [tail]) new).held i = [] := by
    intro i hi
    show (if i ∈ front ++ [tail] then (m.held i).erase t else m.held i) = []
    rw [if_pos hi, h.held i hi, List.erase_cons_head]
  have hother : ∀ i, i ∉ front ++ [tail] →
      (m.pushed t (front ++ [tail]) new).held i = m.held i := fun i hi => if_neg hi
  have hdisj : ∀ i ∈ front ++ [tail], i ∉ slabs := fun i hi => honce.notMem (h.held i hi)
  refine ⟨front ++ [tail] ++ slabs, ?_, ?_, fun i hi => ?_, fun i hi => ?_⟩
  · show Seg m.next new.inner (front ++ [tail] ++ slabs) none
    rw [hnew, List.append_assoc, Lib.seg_append]
    refine ⟨some tail, h.seg, rfl, ?_⟩
    rw [hlink]
    exact honce.seg
  · exact hnodup.append honce.nodup fun i hi hi' => hdisj i hi hi'
  · rcases List.mem_append.mp hi with hi | hi
    · exact hbatch i hi
    · rw [hother i fun hi' => hdisj i hi' hi]
      exact honce.on i hi
  · rw [List.mem_append, not_or] at hi
    rw [hother i hi.1]
    exact honce.off i hi.2

/-- The compare-exchange of a push. -/
theorem does_casPush (hnodup : (front ++ [tail]).Nodup) (hnew : new.inner = some (top front tail)) :
    (sharing cfg).Does t (fun m => Pushes t front tail m ∧ m.next tail = w.inner)
      (.casWord .global w new) fun r m => ∀ w', r = some w' → Pushes t front tail m := by
  refine does fun m r m' hm h hfresh ha => ?_
  rw [handle_casWord] at ha
  split_ifs at ha with hw
  · obtain ⟨rfl, rfl⟩ := ok_inj ha
    subst hw
    have hm' : m.swapped t m.global new = m.pushed t (front ++ [tail]) new := by
      simp only [swapped, swaps, h.1.job, pushed]
    rw [hm']
    refine ⟨hm.pushed h.1 hnodup h.2 hnew, ⟨fun _ => .inl rfl, fun u hu i hi => ?_, fun u hu => ?_,
      .inr fun u hu => hfresh rfl u hu⟩, fun _ h => by cases h⟩
    · show (if i ∈ front ++ [tail] then (m.held i).erase t else m.held i) = [u]
      rw [if_neg, hi]
      intro hmem
      rw [h.1.held i hmem] at hi
      exact hu (List.cons.inj hi).1.symm
    · exact update_of_ne hu _ _
  · obtain ⟨rfl, rfl⟩ := ok_inj ha
    have hm' : m.reads t m.global = m := by simp only [reads, h.1.job]
    rw [hm']
    exact ⟨hm, .refl t m, fun _ _ => h.1⟩

theorem handle_loadWord :
    handle t _ (.loadWord .global) m = .ok (m.global, m.reads t m.global) := rfl

/-- The push reads the head. -/
theorem does_loadPush : (sharing cfg).Does t (Pushes t front tail : StackMem T B → Prop)
    (.loadWord .global) fun _ => Pushes t front tail := by
  refine does fun m r m' hm h _ ha => ?_
  have hm' : m.reads t m.global = m := by simp only [reads, h.job]
  rw [handle_loadWord, hm'] at ha
  obtain ⟨-, rfl⟩ := ok_inj ha
  exact ⟨hm, .refl t m, h⟩

/-- One round of a push. -/
theorem round_push {version : Version} (hnodup : (front ++ [tail]).Nodup) :
    Detectable.Round (sharing cfg) t .global version
      (fun old version => do
        lift (.storeNext tail old)
        pure (some (some (top front tail), .unsizedToGlobal (top front tail) version)))
      (fun _ => Pushes t front tail) (fun _ => Pushes t front tail)
      (fun w p m => Pushes t front tail m ∧ m.next tail = w.inner ∧ p.1 = some (top front tail))
      (fun w p m => Pushes t front tail m ∧ m.next tail = w.inner ∧ p.1 = some (top front tail))
      (fun _ _ => True) where
  stable_seen _ := stable_pushes
  stable_helped _ := stable_pushes
  stable_ready _ _ := stable_linked
  stable_tried _ _ := stable_linked
  stable_return _ := stable_true
  panic _ _ _ _ := trivial
  help _ _ _ h := keeps_help stable_pushes quiet_pushes h
  next w m _ h := by
    refine keeps_access (does_linkTail hnodup) stable_pushes (fun _ m₁ _ h₁ => ?_) h
    refine keeps_pure (fun m m' hI hR h => ⟨fun _ => trivial, fun p hp => ?_⟩)
      ⟨fun _ => trivial, fun p hp => ?_⟩
    · exact stable_linked m m' hI hR (h.2 p hp)
    · obtain rfl := Option.some.inj hp
      exact ⟨h₁.1, h₁.2, rfl⟩
  log _ _ := does_quiet rfl rfl fun m m' hsame hnext h =>
    ⟨quiet_pushes m m' hsame hnext h.1, hnext ▸ h.2⟩
  cas w p := by
    intro m hm h
    refine (does_casPush hnodup h.2.2).mono (fun _ h => h) (fun r m' hr => ?_) m hm ⟨h.1, h.2.1⟩
    exact ⟨fun _ => trivial, hr⟩

/-- `Global::push`. -/
theorem keeps_push (hnodup : (front ++ [tail]).Nodup) (hm : Pushes t front tail m) :
    (sharing cfg).Keeps t (Global.push cfg t (top front tail) tail) (fun _ _ => True) m := by
  refine keeps_bind ((Detectable.keeps_update stable_pushes (fun _ => stable_pushes)
    (fun _ => stable_pushes) (does_quiet rfl rfl quiet_pushes)
    (fun _ => does_quiet rfl rfl quiet_pushes)
    (fun _ => does_loadPush) (fun _ => round_push hnodup) hm).mono fun r m₁ _ => ?_)
  cases r with
  | none => exact keeps_bind keeps_panic
  | some a => exact keeps_pure stable_true trivial

/-! ### `pop` -/

/-- Thread `t` pops, and has read the head `w`. -/
def Seen (t : T) (w : Word T (Option (Index B))) (m : StackMem T B) : Prop :=
  m.job t = .pop (if w.inner.isSome then some w else none)

/-- Thread `t` has read the link behind the slab on top; it still is the link if the head is
still the same. -/
structure Read (t : T) (w : Word T (Option (Index B))) (i : Index B) (v : Option (Index B))
    (m : StackMem T B) : Prop where
  job : m.job t = .pop (some w)
  inner : w.inner = some i
  next : m.global = w → m.next i = v

theorem stable_seen : (sharing cfg).Stable t (Seen t w) :=
  stable_job (p := (· = .pop (if w.inner.isSome then some w else none)))

theorem stable_read : (sharing cfg).Stable t (Read t w i v : StackMem T B → Prop) := by
  refine stable fun u m m' hu hm _ hacts h => ⟨?_, h.inner, fun hw => ?_⟩
  · rw [hacts.job t hu.symm]
    exact h.job
  · -- the head has not been away, so the slab has been on the stack all the time
    have hpopping : m.popping t = some w := by simp only [popping, h.job]
    have hsame : m.global = w := by
      rcases hacts.head with hhead | hhead
      · exact hhead.symm.trans hw
      · exact absurd (hpopping.trans (congrArg some hw.symm)) (hhead t hu.symm)
    have hfree := hm.held_head (i := i) (by rw [hsame]; exact h.inner)
    rw [← h.next hsame]
    refine (hacts.next i).resolve_right fun hheld => ?_
    rw [hfree] at hheld
    cases hheld

omit [DecidableEq T] [DecidableEq B] in
theorem quiet_seen : Quiet (Seen t w : StackMem T B → Prop) :=
  fun _ _ hsame _ h => (congrFun hsame.job t).trans h

omit [DecidableEq T] [DecidableEq B] in
theorem quiet_read : Quiet (Read t w i v : StackMem T B → Prop) :=
  fun _ _ hsame hnext h =>
    ⟨hsame.job ▸ h.job, h.inner, fun hw => hnext ▸ h.next (hsame.global ▸ hw)⟩

omit [DecidableEq B] in
/-- A pop notes the head it reads. -/
theorem reads_pop {seen : Option (Word T (Option (Index B)))} (h : m.job t = .pop seen) :
    m.reads t w = { m with
      job := update m.job t (.pop (if w.inner.isSome then some w else none))
      read := update m.read t m.written } := by
  simp only [reads, h]

omit [DecidableEq B] in
theorem acts_job {x : Watched T B} {j : Job T B} {r : T → ℕ} (hnext : x.next = m.next)
    (hglobal : x.global = m.global) :
    Acts t m { m with toWatched := x, job := update m.job t j, read := r } :=
  { Acts.refl t m with
    next := fun i => .inl (congrFun hnext i)
    job := fun _ hu => update_of_ne hu _ _
    head := .inl hglobal }

theorem does_loadPop : (sharing cfg).Does t (fun m : StackMem T B => m.job t = .pop none)
    (.loadWord .global) fun w => Seen t w := by
  refine does fun m r m' hm h _ ha => ?_
  rw [handle_loadWord, reads_pop h] at ha
  obtain ⟨rfl, rfl⟩ := ok_inj ha
  obtain ⟨slabs, honce⟩ := hm
  exact ⟨⟨slabs, { honce with }⟩, acts_job rfl rfl, update_self _ _ _⟩

/-- The link is read while the slab is on top, or after the head has changed. -/
theorem does_loadNext (hi : w.inner = some i) :
    (sharing cfg).Does t (Seen t w) (.loadNext i) fun v => Read t w i v := by
  refine does fun m r m' hm h _ ha => ?_
  obtain ⟨rfl, rfl⟩ := ok_inj ha
  refine ⟨hm, .refl t m, ?_, hi, fun _ => rfl⟩
  rw [Seen, hi] at h
  exact h

/-- The memory after a pop. -/
def popped (t : T) (m : StackMem T B) (i : Index B) (new : Word T (Option (Index B))) :
    StackMem T B :=
  { m with
    global := new
    pending := update m.pending t false
    held := update m.held i (t :: m.held i)
    job := update m.job t .other
    written := m.begun t }

omit [DecidableEq B] in
/-- The slab on top is the thread's. -/
theorem Sound.popped (hm : m.Sound) (hi : m.global.inner = some i)
    (hnew : new.inner = m.next i) : (m.popped t i new).Sound := by
  obtain ⟨slabs, honce⟩ := hm
  have hseg := honce.seg
  rw [hi] at hseg
  cases slabs with
  | nil => cases hseg
  | cons j slabs =>
    obtain rfl := Option.some.inj hseg.1
    have hnot : i ∉ slabs := (List.nodup_cons.mp honce.nodup).1
    refine ⟨slabs, ?_, (List.nodup_cons.mp honce.nodup).2, fun k hk => ?_, fun k hk => ?_⟩
    · show Seg m.next new.inner slabs none
      rw [hnew]
      exact hseg.2
    · have hki : k ≠ i := by
        rintro rfl
        exact hnot hk
      rw [show (m.popped t i new).held k = m.held k from update_of_ne hki _ _]
      exact honce.on k (List.mem_cons_of_mem _ hk)
    · by_cases hki : k = i
      · subst hki
        refine ⟨t, ?_⟩
        rw [show (m.popped t k new).held k = t :: m.held k from update_self _ _ _,
          honce.on k List.mem_cons_self]
      · rw [show (m.popped t i new).held k = m.held k from update_of_ne hki _ _]
        exact honce.off k (by simp [hki, hk])

/-- The compare-exchange of a pop. -/
theorem does_casPop :
    (sharing cfg).Does t (Read t w i new.inner) (.casWord .global w new) fun r m =>
      ∀ w', r = some w' → Seen t w' m := by
  refine does fun m r m' hm h hfresh ha => ?_
  rw [handle_casWord] at ha
  split_ifs at ha with hw
  · obtain ⟨rfl, rfl⟩ := ok_inj ha
    subst hw
    have hm' : m.swapped t m.global new = m.popped t i new := by
      simp only [swapped, swaps, h.job, h.inner, popped]
    rw [hm']
    refine ⟨hm.popped h.inner (h.next rfl).symm, ⟨fun _ => .inl rfl, fun u hu j hj => ?_,
      fun u hu => update_of_ne hu _ _, .inr fun u hu => hfresh rfl u hu⟩, fun _ h => by cases h⟩
    show update m.held i (t :: m.held i) j = [u]
    rw [update_of_ne, hj]
    rintro rfl
    rw [hm.held_head h.inner] at hj
    cases hj
  · obtain ⟨rfl, rfl⟩ := ok_inj ha
    rw [reads_pop h.job]
    obtain ⟨slabs, honce⟩ := hm
    refine ⟨⟨slabs, { honce with }⟩, acts_job rfl rfl, fun w' hw' => ?_⟩
    obtain rfl := Option.some.inj hw'
    exact update_self _ _ _

theorem stable_exists_read :
    (sharing cfg).Stable t fun m : StackMem T B => ∃ i, Read t w i v m := by
  rintro m m' hI hR ⟨i, h⟩
  exact ⟨i, stable_read m m' hI hR h⟩

/-- One round of a pop. -/
theorem round_pop {version : Version} :
    Detectable.Round (sharing cfg : Protocol (system (T := T) (B := B) cfg) Fresh) t .global version
      (fun old version =>
        match old with
        | none => pure none
        | some index => do
          let new ← lift (.loadNext index)
          pure (some (new, .globalToUnsized index version)))
      (fun w => Seen t w) (fun w => Seen t w) (fun w p m => ∃ i, Read t w i p.1 m)
      (fun w p m => ∃ i, Read t w i p.1 m) (fun _ _ => True) where
  stable_seen _ := stable_seen
  stable_helped _ := stable_seen
  stable_ready _ _ := stable_exists_read
  stable_tried _ _ := stable_exists_read
  stable_return _ := stable_true
  panic _ _ _ _ := trivial
  help _ _ _ h := keeps_help stable_seen quiet_seen h
  next w m _ h := by
    cases hw : w.inner with
    | none => exact fun _ _ _ => ⟨fun _ => trivial, fun _ h => (by cases h)⟩
    | some i =>
      refine keeps_access (does_loadNext hw) stable_seen (fun v m₁ _ h₁ => ?_) h
      refine keeps_pure (fun m m' hI hR h => ⟨fun _ => trivial, fun p hp => ?_⟩)
        ⟨fun _ => trivial, fun p hp => ?_⟩
      · exact stable_exists_read m m' hI hR (h.2 p hp)
      · obtain rfl := Option.some.inj hp
        exact ⟨i, h₁⟩
  log _ _ := does_quiet rfl rfl fun m m' hsame hnext ⟨i, h⟩ => ⟨i, quiet_read m m' hsame hnext h⟩
  cas w p := by
    rintro m hm ⟨i, h⟩
    refine does_casPop.mono (fun _ h => h) (fun r m' hr => ?_) m hm h
    exact ⟨fun _ => trivial, hr⟩

/-- `Global::pop`. -/
theorem keeps_pop (hm : m.job t = .pop none) :
    (sharing cfg).Keeps t (Global.pop cfg t) (fun _ _ => True) m := by
  have hstable : (sharing cfg).Stable t fun m : StackMem T B => m.job t = .pop none :=
    stable_job (p := (· = .pop none))
  have hquiet : Quiet fun m : StackMem T B => m.job t = .pop none :=
    fun _ _ hsame _ h => (congrFun hsame.job t).trans h
  refine keeps_bind ((Detectable.keeps_update hstable (fun _ => hstable) (fun _ => hstable)
    (does_quiet rfl rfl hquiet) (fun _ => does_quiet rfl rfl hquiet) (fun _ => does_loadPop)
    (fun _ => round_pop) hm).mono fun r m₁ _ => ?_)
  exact keeps_pure stable_true trivial

/-! ### Everything else -/

theorem stable_other : (sharing cfg).Stable t fun m : StackMem T B => m.job t = .other :=
  stable_job (p := (· = .other))

/-- An access that writes neither a link nor the head. -/
theorem does_apart {act : Access T B β} (hact : act.apart) :
    (sharing cfg).Does t (fun m : StackMem T B => m.job t = .other) act fun _ m =>
      m.job t = .other := by
  cases hhead : act.onHead with
  | false => exact does_quiet hhead hact fun _ _ hsame _ h => (congrFun hsame.job t).trans h
  | true =>
    cases act with
    | loadWord o =>
      cases o with
      | global =>
        refine does fun m b m' hm h _ ha => ?_
        have hm' : m.reads t m.global = m := by simp only [reads, h]
        rw [handle_loadWord, hm'] at ha
        obtain ⟨-, rfl⟩ := ok_inj ha
        exact ⟨hm, .refl t m, h⟩
      | _ => cases hhead
    | storeWord o | casWord o => cases o <;> contradiction
    | _ => cases hhead

/-! ### Calls -/

theorem calls : (sharing cfg : Protocol (system (T := T) (B := B) cfg) Fresh).Calls := by
  intro t call m hm _ hlegal
  have hjob : ∀ (x : Watched T B) (j : Job T B), x.next = m.next → x.global = m.global →
      ({ m with toWatched := x, job := update m.job t j } : StackMem T B).Sound ∧
        Acts t m { m with toWatched := x, job := update m.job t j } := by
    intro x j hnext hglobal
    obtain ⟨slabs, honce⟩ := hm
    refine ⟨⟨slabs, ?_, honce.nodup, honce.on, honce.off⟩, acts_job hnext hglobal⟩
    show Seg x.next x.global.inner slabs none
    rw [hnext, hglobal]
    exact honce.seg
  cases call with
  | push front tail =>
    obtain ⟨hheld, hnodup, hseg⟩ := hlegal
    have h := hjob (m.callUpdate t) (.push (front ++ [tail])) rfl rfl
    exact ⟨h.1, h.2, keeps_push hnodup ⟨update_self _ _ _, hheld, hseg⟩⟩
  | pop =>
    have h := hjob (m.callUpdate t) (.pop none) rfl rfl
    refine ⟨h.1, h.2, keeps_bind ((keeps_pop (update_self _ _ _)).mono fun _ _ _ => ?_)⟩
    exact keeps_pure stable_true trivial
  | link i v =>
    have h := hjob (m.callOther t) .other rfl rfl
    have hi : m.held i = [t] := hlegal
    have hstable : (sharing cfg).Stable t fun m : StackMem T B => m.held i = [t] :=
      stable fun u m m' hu _ _ hacts h => hacts.held t hu.symm i h
    refine ⟨h.1, h.2, keeps_lift (does fun m b m' hm h _ ha => ?_) hstable
      (fun _ => stable_true) hi⟩
    obtain ⟨-, rfl⟩ := ok_inj ha
    exact ⟨hm.link h v, acts_link h v, trivial⟩
  | access act hplain hact =>
    have h := hjob (m.callOther t) .other rfl rfl
    refine ⟨h.1, h.2, keeps_bind ((keeps_lift (does_apart hact) stable_other
      (fun _ => stable_other) (update_self _ _ _)).mono fun _ _ _ => ?_)⟩
    exact keeps_pure stable_true trivial
  | word call hcode =>
    have h := hjob (m.toWatched.enter t call) .other (by cases call <;> rfl) (by cases call <;> rfl)
    refine ⟨h.1, h.2, (keeps_of_only (hcode t) stable_other (fun _ _ h => does_apart h)
      (update_self _ _ _)).mono fun _ _ _ => trivial⟩

/-! ### The ages of the heads -/

/-- A word that a thread wrote has the version of its update `n`. -/
def Dates (m : StackMem T B) (w : Word T (Option (Index B))) (n : ℕ) : Prop :=
  ∀ t, w.id = some t → w.version = BitVec.ofNat 16 n ∧ m.Spent t n

/-- The heads are as old as noted. -/
structure Dated (m : StackMem T B) : Prop where
  head : m.Dates m.global m.written
  seen : ∀ u, ∀ w ∈ m.popping u, m.Dates w (m.read u)

omit [DecidableEq T] [DecidableEq B] in
theorem Dates.ages {n : ℕ} (h : m.Dates w n) (hages : m.Ages m'.toWatched) : m'.Dates w n :=
  fun t ht => ⟨(h t ht).1, hages t n (h t ht).2⟩

omit [DecidableEq T] [DecidableEq B] in
/-- Most threads go on to compare with the same head as before. -/
theorem Dated.move (h : Dated m) (hages : m.Ages m'.toWatched)
    (hhead : m'.Dates m'.global m'.written)
    (hseen : ∀ u, m'.job u = m.job u ∧ m'.read u = m.read u ∨
      ∀ w ∈ m'.popping u, m'.Dates w (m'.read u)) : Dated m' := by
  refine ⟨hhead, fun u w hw => ?_⟩
  rcases hseen u with ⟨hjob, hread⟩ | hnew
  · rw [popping, hjob] at hw
    rw [hread]
    exact (h.seen u w hw).ages hages
  · exact hnew w hw

omit [DecidableEq B] in
theorem Dated.reads (h : Dated m) : Dated (m.reads t m.global) := by
  unfold StackMem.reads
  split
  · refine h.move (fun _ _ h => h) h.head fun u => ?_
    by_cases hu : u = t
    · subst hu
      refine .inr fun w hw => ?_
      simp only [popping, update_self] at hw ⊢
      split_ifs at hw
      · obtain rfl := Option.some.inj hw
        exact h.head
      · cases hw
    · exact .inl ⟨update_of_ne hu _ _, update_of_ne hu _ _⟩
  · exact h

omit [DecidableEq B] in
/-- Who replaces the head has no use any more for one that it has read. -/
theorem job_swaps (u : T) : (m.swaps t w).read = m.read ∧
    ((m.swaps t w).job u = m.job u ∨ (m.swaps t w).job u = .other) := by
  have hother : ∀ j : Job T B, update m.job t j u = m.job u ∨ update m.job t j u = j := by
    intro j
    by_cases hu : u = t
    · subst hu
      exact .inr (update_self _ _ _)
    · exact .inl (update_of_ne hu _ _)
  unfold swaps
  split
  · exact ⟨rfl, hother _⟩
  · exact ⟨rfl, hother _⟩
  · exact ⟨rfl, .inl rfl⟩

omit [DecidableEq B] in
theorem Dated.swapped (hI : m.Numbered) (h : Dated m) (htag : new.tag = (some t, m.help t t))
    (hages : m.Ages (m.swapped t w new).toWatched) : Dated (m.swapped t w new) := by
  have hwatched : (m.swapped t w new).toWatched =
      { m.toWatched with global := new, pending := update m.pending t false } := toWatched_swaps
  have hglobal : (m.swapped t w new).global = new := by rw [hwatched]
  obtain ⟨hid, hversion⟩ := Prod.mk.inj htag
  refine h.move hages (fun u hu => ?_) fun u => ?_
  · rw [hglobal] at hu ⊢
    obtain rfl := Option.some.inj (hid.symm.trans hu)
    refine ⟨hversion.trans (hI.cell t), ?_⟩
    rw [hwatched]
    exact ⟨le_rfl, fun hp => absurd (hp.symm.trans (update_self _ _ _)) (by simp)⟩
  · obtain ⟨hread, hjob | hjob⟩ := job_swaps (t := t) (w := w) (m := { m with
      global := new, pending := update m.pending t false }) u
    · exact .inl ⟨hjob, congrFun hread u⟩
    · refine .inr fun w' hw' => ?_
      rw [popping, show (m.swapped t w new).job u = .other from hjob] at hw'
      cases hw'

theorem Dated.handle {act : Access T B β} {b : β} (hI : m.Numbered) (hd : Dated m)
    (htags : Watched.Tags t β act m.toWatched) (hages : m.Ages m'.toWatched)
    (h : StackMem.handle t β act m = .ok (b, m')) : Dated m' := by
  cases hhead : act.onHead with
  | false =>
    have hsame := same_of_handle hhead h
    refine hd.move hages ?_ fun u => .inl ⟨by rw [hsame.job], by rw [hsame.read]⟩
    rw [hsame.global, hsame.written]
    exact hd.head.ages hages
  | true =>
    cases act with
    | loadWord o =>
      cases o with
      | global =>
        obtain ⟨-, rfl⟩ := ok_inj h
        exact hd.reads
      | _ => cases hhead
    | storeWord o new =>
      cases o with
      | global =>
        obtain ⟨-, rfl⟩ := ok_inj h
        obtain ⟨hid, hversion⟩ := Prod.mk.inj htags
        refine hd.move hages (fun u hu => ⟨hversion, Nat.zero_le _, fun hp => ?_⟩)
          fun _ => .inl ⟨rfl, rfl⟩
        exact hI.pending u hp
      | _ => cases hhead
    | casWord o old new =>
      cases o with
      | global =>
        rw [handle_casWord] at h
        split_ifs at h
        · obtain ⟨-, rfl⟩ := ok_inj h
          exact hd.swapped hI htags.1 hages
        · obtain ⟨-, rfl⟩ := ok_inj h
          exact hd.reads
      | _ => cases hhead
    | _ => cases hhead

/-- How the ages of the heads are kept. -/
def dating (cfg : Config) :
    Protocol (system cfg : System T (Access T B) (StackMem T B) Panic) InTime where
  inv m := m.Numbered ∧ m.Dated
  rely t m m' := Watched.numbered.rely t m.toWatched m'.toWatched
  guar t m m' := Watched.numbered.guar t m.toWatched m'.toWatched
  needs t β act m := Watched.Tags t β act m.toWatched
  rely_refl t m := Watched.numbered.rely_refl t m.toWatched
  rely_trans t _ _ _ := Watched.numbered.rely_trans t _ _ _
  guar_refl t m := Watched.numbered.guar_refl t m.toWatched
  rely_of_guar t u _ _ hne hI hI' := Watched.numbered.rely_of_guar t u _ _ hne hI.1 hI'.1

/-- The ages are kept by what keeps the versions in order. -/
theorem keeps_dating {p : HeapCode T B Unit}
    (hp : Watched.numbered.Keeps t p (fun _ _ => True) m.toWatched) :
    (dating cfg).Keeps t p (fun _ _ => True) m :=
  hp.pull (f := toWatched) (fun _ h => h.1) (fun _ _ h => h) (fun _ _ _ _ h => h)
    (fun _ _ _ h => h.1) fun _ _ _ _ _ hI htags h => ⟨toWatched_handle h, fun hI' hG =>
      ⟨⟨hI', hI.2.handle hI.1 htags hG.2 h⟩, hG⟩⟩

omit [DecidableEq B] in
/-- A call begins without a head that was read. -/
theorem Dated.enter {x : Watched T B} {j : Job T B} (h : Dated m) (hages : m.Ages x)
    (hglobal : x.global = m.global) (hj : ∀ w, j ≠ .pop (some w)) :
    Dated { m with toWatched := x, job := update m.job t j } := by
  refine h.move hages ?_ fun u => ?_
  · show Dates _ x.global m.written
    rw [hglobal]
    exact h.head.ages hages
  · by_cases hu : u = t
    · subst hu
      refine .inr fun w hw => ?_
      simp only [popping, update_self] at hw
      split at hw
      · rw [Option.mem_def] at hw
        subst hw
        exact absurd rfl (hj w)
      · cases hw
    · exact .inl ⟨update_of_ne hu _ _, rfl⟩

theorem calls_dating : (dating cfg : Protocol (system (T := T) (B := B) cfg) InTime).Calls := by
  intro t call m hI _ _
  obtain ⟨hupdate, hupdate', hcalled⟩ := Watched.numbered_callUpdate (t := t) hI.1
  obtain ⟨hother, hother', hannounced⟩ := Watched.numbered_callOther (t := t) hI.1
  have hplain : ∀ {β : Type} (act : Access T B β), act.plain = true →
      Watched.numbered.Keeps t (lift act) (fun _ _ => True) (m.callOther t) := fun act hact =>
    (keeps_lift (Watched.does_plain hact) Watched.stable_announced
      (fun _ => Watched.stable_announced) hannounced).mono fun _ _ _ => trivial
  have htrue : ∀ m : Watched T B,
      Watched.numbered.Keeps t (pure () : HeapCode T B Unit) (fun _ _ => True) m :=
    fun _ _ _ _ => trivial
  cases call with
  | push front tail =>
    refine ⟨⟨hupdate, hI.2.enter hupdate'.2 rfl (by simp)⟩, hupdate', keeps_dating (keeps_bind
      ((Watched.keeps_update (.push _ tail) hcalled).mono fun r m' _ => ?_))⟩
    cases r with
    | none => exact fun _ _ _ => ⟨trivial, fun _ b => b.elim⟩
    | some a => exact htrue m'
  | pop =>
    exact ⟨⟨hupdate, hI.2.enter hupdate'.2 rfl (by simp)⟩, hupdate', keeps_dating (keeps_bind
      (keeps_bind ((Watched.keeps_update .pop hcalled).mono fun _ _ _ m' _ _ => htrue m')))⟩
  | link i v =>
    exact ⟨⟨hother, hI.2.enter hother'.2 rfl (by simp)⟩, hother', keeps_dating (hplain _ rfl)⟩
  | access act hact =>
    exact ⟨⟨hother, hI.2.enter hother'.2 rfl (by simp)⟩, hother', keeps_dating (keeps_bind
      ((hplain act hact).mono fun _ m' _ => htrue m'))⟩
  | word call =>
    obtain ⟨hI', hG, hk⟩ := Watched.calls_numbered t call m.toWatched hI.1 trivial trivial
    exact ⟨⟨hI', hI.2.enter hG.2 (by cases call <;> rfl) (by simp)⟩, hG, keeps_dating hk⟩

omit [DecidableEq T] [DecidableEq B] in
/-- A head that is written while another thread has it in mind was written by the same thread
before, and many updates have begun since. -/
theorem fresh_of_inTime {act : Access T B β} (hI : m.Numbered) (hd : Dated m)
    (htags : Watched.Tags t β act m.toWatched) (hg : InTime t β act m) : Fresh t β act m := by
  cases act with
  | casWord o old new =>
    cases o with
    | global =>
      intro hw u hu hpop
      obtain ⟨htag, hpending⟩ := htags
      obtain ⟨hid, hversion⟩ := Prod.mk.inj htag
      obtain ⟨hdate, hspent⟩ := hd.seen u new hpop t hid
      have hbefore := hspent.2 hpending
      have hafter := hg.2 hw u hu new hpop hid
      have heq := congrArg BitVec.toNat (hdate.symm.trans (hversion.trans (hI.cell t)))
      rw [BitVec.toNat_ofNat, BitVec.toNat_ofNat] at heq
      omega
    | _ => trivial
  | _ => trivial

/-! ### Every run -/

/-- **The global stack neither loses nor duplicates a slab** in every run in which no thread reads
a word of its own with an older version than its latest, or writes a head 2^16 updates after it
wrote one that another thread is about to compare with: every slab is on the stack, once, or held
by exactly one thread. -/
theorem slabs_once {h : Heap T B} {slabs : List (Index B)} {holder : Index B → T}
    (huntagged : ∀ {α : Type} (o : Obj B α), (h.word o).id = none)
    (hchain : Seg h.next h.global.inner slabs none)
    {w : Pool T (Access T B) (StackMem T B)}
    (hrun : ReflTransGen (Pool.Steps (system cfg) InTime) (Pool.idle (resting h slabs holder)) w) :
    ∃ slabs', w.mem.Once slabs' := by
  have hnone : ∀ {α : Type} (o : Obj B α) t, (h.word o).id = some t → False := fun o t ht => by
    rw [huntagged o] at ht
    cases ht
  have hI : (resting h slabs holder).Numbered :=
    { Watched.numbered_zeroed (T := T) (B := B) with word := fun o t ht => (hnone o t ht).elim }
  have hd : (resting h slabs holder).Dated :=
    ⟨fun t ht => (hnone .global t ht).elim, fun _ _ hw => by cases hw⟩
  have hfresh : ReflTransGen (Pool.Steps (system cfg) Fresh) _ w :=
    narrow calls_dating (fun _ _ _ _ hI htags hg => fresh_of_inTime hI.1 hI.2 htags hg)
      (good_idle ⟨hI, hd⟩ fun _ _ _ _ => trivial) hrun
  have hm : (resting h slabs holder).Sound := by
    refine ⟨slabs, hchain, hchain.nodup, fun i hi => if_pos hi, fun i hi => ⟨holder i, if_neg hi⟩⟩
  exact (run calls (good_idle hm fun _ _ _ _ => trivial) hfresh).inv

/-- Slab 2 is on the stack. -/
def oneSlab : Heap (Fin 2) Large :=
  { (Heap.zeroed : Heap (Fin 2) Large) with global := .zeroed (some (.succ .min)) }

/-- Thread 0 pushes slab 1, and thread 1 pops it. -/
theorem slabs_once_passed :
    ∃ w : Pool (Fin 2) (Act (Fin 2) Large (HeapState Large)) (StackMem (Fin 2) Large),
      ReflTransGen (Pool.Steps (system (Config.initial false)) InTime)
        (Pool.idle (resting oneSlab [.succ .min] fun _ => 0)) w ∧
      w.mem.held .min = [1] ∧ ∃ slabs', w.mem.Once slabs' := by
  have h₀ : ReflTransGen (Pool.Steps (system (Config.initial false)) InTime)
    (Pool.idle (resting oneSlab [.succ .min] fun _ => 0))
    (Pool.idle (resting oneSlab [.succ .min] fun _ => 0)) := .refl
  have h₁ := Pool.play_trans h₀ [.call 0 (StackCall.push [] .min), .go 0 6,
    .call 1 StackCall.pop, .go 1 7] rfl
  have hchain : Seg oneSlab.next oneSlab.global.inner [.succ .min] none := ⟨rfl, rfl⟩
  exact ⟨_, h₁, rfl, slabs_once (fun o => by cases o <;> rfl) hchain h₁⟩

/-! ### A head that comes back -/

omit [DecidableEq T] [DecidableEq B] in
theorem apart_help {w : Word T α} :
    (Detectable.help t w : HeapCode T B Unit).Only fun _ act => act.apart := by
  unfold Detectable.help
  split
  · exact .pure _
  · exact .lift rfl

omit [DecidableEq T] [DecidableEq B] in
theorem apart_load {o : Obj B α} :
    ((DetectCall.load o).code t : HeapCode T B Unit).Only fun _ act => act.apart :=
  .bind (.bind (.lift rfl) fun _ => .bind apart_help fun _ => .pure _) fun _ => .pure _

omit [DecidableEq T] [DecidableEq B] in
theorem apart_store {r : Remote} : ((DetectCall.store (.remote i) r).code t :
    HeapCode T B Unit).Only fun _ act => act.apart :=
  .bind (.lift rfl) fun _ => .bind apart_help fun _ => .lift rfl

/-- Thread 0 has pushed slab 1 on slab 2, with version 1, and thread 1 begins to pop it.
Thread 0 pops both, writes a remote counter and reads it, which sets its version back to 0, and
pushes slab 1 again, with version 1.  Thread 1 does not notice, and leaves slab 2 on the stack,
which thread 0 holds.  No thread begins more than four updates. -/
theorem slabs_once_aba :
    ∃ w : Pool (Fin 2) (Act (Fin 2) Large (HeapState Large)) (StackMem (Fin 2) Large),
      ReflTransGen (Pool.Steps (system (Config.initial false)) Guard.any)
        (Pool.idle (resting oneSlab [.succ .min] fun _ => 0)) w ∧
      (∀ t, w.mem.begun t ≤ 4) ∧ w.mem.global.inner = some (.succ .min) ∧
      w.mem.held (.succ .min) = [0] ∧ ¬ ∃ slabs', w.mem.Once slabs' := by
  have h₀ : ReflTransGen (Pool.Steps (system (Config.initial false)) Guard.any)
    (Pool.idle (resting oneSlab [.succ .min] fun _ => 0))
    (Pool.idle (resting oneSlab [.succ .min] fun _ => 0)) := .refl
  have h₁ := Pool.play_trans h₀ [.call 0 (StackCall.push [] .min), .go 0 6,
    .call 1 StackCall.pop, .go 1 6, .call 0 StackCall.pop, .go 0 7, .call 0 StackCall.pop, .go 0 7,
    .call 0 (StackCall.word (.store (.remote .min) ⟨1⟩) fun _ => apart_store), .go 0 3,
    .call 0 (StackCall.word (.load (.remote .min)) fun _ => apart_load), .go 0 3,
    .call 0 (StackCall.push [] .min), .go 0 7, .go 1 1] rfl
  refine ⟨_, h₁, fun t => ?_, rfl, rfl, fun hm => ?_⟩
  · match t with
    | 0 => exact Nat.le_refl 4
    | 1 => exact Nat.le_of_ble_eq_true rfl
  · have hheld := Sound.held_head hm (i := .succ .min) rfl
    cases hheld

end StackMem

end Cxlalloc
