/-
Who frees a slab's blocks locally, with private caches.

A thread takes the local path of `Heap::free` on the word of the record it sees.  What is shown
here is when that word can be trusted (`Orderly`): a slab changes hands only after the thread that
had it has flushed the record, and the changes of the new one are written back before a thread
that memory still names looks at the record again.  Then a copy that names its own thread is one of
the thread that holds the title, and so is the record in memory, unless there are changes that were
not written back.

The allocator does not keep to that.  `detach` leaves a slab with the name of its owner in it and
does not flush it, and whoever frees the last block steals it from there.
-/
import Cxlalloc.Caches
import Cxlalloc.Proofs.Footprint

namespace Cxlalloc

open Lib
open Lib.Prog (lift)
open Function
open Relation

namespace CacheMem

variable {T B β : Type} [Bracket B] [DecidableEq T] {m m' : CacheMem T B} {t u : T} {i j : Index B}

/-! ### What the threads see -/

variable {c : Copy T B}

omit [DecidableEq T] in
theorem view_of_some (h : m.copy t i = some c) : m.view t i = c := by
  rw [view, h]
  rfl

omit [DecidableEq T] in
theorem view_of_none (h : m.copy t i = none) : m.view t i = m.stored i := by
  rw [view, h]
  rfl

variable {f : Bool}

omit [Bracket B] in
/-- An entry of a table with one entry replaced. -/
theorem update_update_apply {α : Type} {g : T → Index B → α} {a : α} :
    update g t (update (g t) i a) u j = if u = t ∧ j = i then a else g u j := by
  by_cases hu : u = t
  · subst hu
    simp [update_apply]
  · simp [hu]

theorem copy_setCopy {c : Option (Copy T B)} :
    (m.setCopy t i c f).copy u j = if u = t ∧ j = i then c else m.copy u j :=
  update_update_apply

theorem flushed_setCopy {c : Option (Copy T B)} :
    (m.setCopy t i c f).flushed u j = if u = t ∧ j = i then f else m.flushed u j :=
  update_update_apply

/-! ### The invariant -/

omit [DecidableEq T] in
/-- Somebody has changes of a record that were not written back. -/
def Changed (m : CacheMem T B) (i : Index B) : Prop :=
  ∃ u c, m.copy u i = some c ∧ c.dirty = true

/-- What the copies and the memory say about the owners of slabs. -/
structure Sound (m : CacheMem T B) : Prop where
  /-- Who has flushed a record has no copy of it. -/
  flushed : ∀ t i, m.flushed t i = true → m.copy t i = none
  /-- A copy that names its own thread is one of the thread that holds the title. -/
  titled : ∀ t i c, m.copy t i = some c → c.owner = some t → m.title i = some t
  /-- A copy that was written names its own thread or nobody. -/
  dirty : ∀ t i c, m.copy t i = some c → c.dirty = true → ∀ u ∈ c.owner, u = t
  /-- Memory names the thread that holds the title, or will be overwritten. -/
  stored : ∀ t i, m.owner i = some t → m.title i = some t ∨ m.Changed i

omit [DecidableEq T] in
/-- The invariant is about the owners. -/
theorem Sound.congr (hm : m.Sound) (howner : m'.owner = m.owner) (hcopy : m'.copy = m.copy)
    (htitle : m'.title = m.title) (hflushed : m'.flushed = m.flushed) : m'.Sound := by
  refine ⟨fun t i h => ?_, fun t i c h ho => ?_, fun t i c h => hm.dirty t i c (hcopy ▸ h),
    fun t i h => ?_⟩
  · rw [hcopy]
    exact hm.flushed t i (hflushed ▸ h)
  · rw [htitle]
    exact hm.titled t i c (hcopy ▸ h) ho
  · rw [htitle, Changed, hcopy]
    exact hm.stored t i (howner ▸ h)

omit [DecidableEq T] in
/-- **A thread that sees itself as the owner holds the title.** -/
theorem Sound.title_of_view (hm : m.Sound) (hback : m.WrittenBack t i)
    (h : (m.view t i).owner = some t) : m.title i = some t := by
  cases hcopy : m.copy t i with
  | some c =>
    rw [view_of_some hcopy] at h
    exact hm.titled t i c hcopy h
  | none =>
    rw [view_of_none hcopy] at h
    refine (hm.stored t i h).resolve_right ?_
    rintro ⟨u, c, hu, hdirty⟩
    rw [hback hcopy h u c hu] at hdirty
    cases hdirty

/-- Thread `t` has a new copy, and the title is as before or its own. -/
theorem Sound.setCopy {title : Index B → Option T} (hm : m.Sound)
    (htitle : ∀ j, j ≠ i → title j = m.title j) (hself : c.owner = some t → title i = some t)
    (hother : ∀ u, u ≠ t → m.copy u i ≠ none → m.title i = some u → title i = some u)
    (hdirty : c.dirty = true → ∀ u ∈ c.owner, u = t)
    (hstored : c.dirty = false → title i = m.title i ∧ ∀ d, m.copy t i = some d → d.dirty = false) :
    ({ m.setCopy t i (some c) false with title := title } : CacheMem T B).Sound := by
  have hcopy : ∀ u j, (m.setCopy t i (some c) false).copy u j =
      if u = t ∧ j = i then some c else m.copy u j := fun _ _ => copy_setCopy
  refine ⟨fun u j h => ?_, fun u j d h ho => ?_, fun u j d h => ?_, fun u j h => ?_⟩
  · change (m.setCopy t i (some c) false).flushed u j = true at h
    show (m.setCopy t i (some c) false).copy u j = none
    rw [flushed_setCopy] at h
    rw [hcopy]
    split at h
    · cases h
    · rename_i hne
      rw [if_neg hne]
      exact hm.flushed u j h
  · change (m.setCopy t i (some c) false).copy u j = some d at h
    show title j = some u
    rw [hcopy] at h
    split at h
    · rename_i heq
      obtain ⟨rfl, rfl⟩ := heq
      exact hself (Option.some.inj h ▸ ho)
    · rename_i hne
      have hold := hm.titled u j d h ho
      by_cases hj : j = i
      · subst hj
        exact hother u (fun hu => hne ⟨hu, rfl⟩) (by rw [h]; exact Option.some_ne_none d) hold
      · rw [htitle j hj]
        exact hold
  · change (m.setCopy t i (some c) false).copy u j = some d at h
    rw [hcopy] at h
    split at h
    · rename_i heq
      rw [heq.1, ← Option.some.inj h]
      exact hdirty
    · exact hm.dirty u j d h
  · show title j = some u ∨ ∃ u' d, (m.setCopy t i (some c) false).copy u' j = some d ∧ _
    have hold := hm.stored u j h
    by_cases hj : j = i
    · subst hj
      cases hd : c.dirty with
      | true => exact .inr ⟨t, c, by rw [hcopy, if_pos ⟨rfl, rfl⟩], hd⟩
      | false =>
        obtain ⟨hsame, hclean⟩ := hstored hd
        rw [hsame]
        refine hold.imp_right ?_
        rintro ⟨u', d, hu', hdd⟩
        refine ⟨u', d, ?_, hdd⟩
        rw [hcopy, if_neg, hu']
        rintro ⟨rfl, -⟩
        rw [hclean d hu'] at hdd
        cases hdd
    · rw [htitle j hj]
      refine hold.imp_right ?_
      rintro ⟨u', d, hu', hdd⟩
      exact ⟨u', d, by rw [hcopy, if_neg fun h => hj h.2, hu'], hdd⟩

/-! ### The accesses -/

theorem Sound.fetch (hm : m.Sound) (hback : m.WrittenBack t i) : (m.fetch t i).Sound := by
  refine hm.setCopy (fun _ _ => rfl) (hm.title_of_view hback) (fun _ _ _ h => h) ?_ ?_
  · cases h : m.copy t i with
    | none =>
      rw [view_of_none h]
      exact fun hdirty => by cases hdirty
    | some c =>
      rw [view_of_some h]
      exact hm.dirty t i c h
  · intro hclean
    refine ⟨rfl, fun d hd => ?_⟩
    rwa [view_of_some hd] at hclean

/-- A write to another field than the owner. -/
theorem Sound.write {f : Copy T B → Copy T B} (hm : m.Sound) (hf : ∀ c, (f c).owner = c.owner)
    (hback : m.WrittenBack t i) (hresp : ∀ u ∈ (m.view t i).owner, u = t) :
    (m.write t i f).Sound := by
  refine hm.setCopy (fun _ _ => rfl) (fun h => hm.title_of_view hback ?_) (fun _ _ _ h => h)
    (fun _ => ?_) (fun hclean => by cases hclean)
  · rw [← hf]
    exact h
  · show ∀ u ∈ (f (m.view t i)).owner, u = t
    rw [hf]
    exact hresp

/-- The title goes to the thread that writes its name: whoever had it has no copy left. -/
theorem Sound.writeOwner {v : Option T} (hm : m.Sound) (hself : ∀ u ∈ v, u = t)
    (hresp : ∀ u ∈ m.title i, u = t ∨ m.flushed u i = true) : (m.writeOwner t i v).Sound := by
  refine hm.setCopy (c := { m.view t i with owner := v, dirty := true })
    (fun j hj => update_of_ne hj _ _) (fun h => ?_) (fun u hu hcopy htitle => ?_) (fun _ => hself)
    (fun hclean => by cases hclean)
  · rw [update_self]
    exact h
  · exact absurd (hm.flushed u i ((hresp u htitle).resolve_left hu)) hcopy

/-- Thread `t` has no copy any more.  If it had changes, memory has them. -/
theorem Sound.drop (hm : m.Sound)
    (hclean : ∀ c, m.copy t i = some c → c.dirty = true → m.owner i = c.owner) :
    (m.setCopy t i none f).Sound := by
  refine ⟨fun u j h => ?_, fun u j c h => ?_, fun u j c h => ?_, fun u j h => ?_⟩
  · rw [flushed_setCopy] at h
    rw [copy_setCopy]
    split at h
    · rename_i heq
      rw [if_pos heq]
    · rename_i hne
      rw [if_neg hne]
      exact hm.flushed u j h
  · rw [copy_setCopy] at h
    split at h
    · cases h
    · exact hm.titled u j c h
  · rw [copy_setCopy] at h
    split at h
    · cases h
    · exact hm.dirty u j c h
  · rcases hm.stored u j h with htitle | ⟨u', c, hu', hdirty⟩
    · exact .inl htitle
    · by_cases heq : u' = t ∧ j = i
      · obtain ⟨rfl, rfl⟩ := heq
        have howner : c.owner = some u := (hclean c hu' hdirty).symm.trans h
        obtain rfl := hm.dirty u' j c hu' hdirty u howner
        exact .inl (hm.titled u j c hu' howner)
      · exact .inr ⟨u', c, by rw [copy_setCopy, if_neg heq, hu'], hdirty⟩

omit [DecidableEq T] in
/-- Memory takes over what the copy of a thread says. -/
theorem Sound.writeBack (hm : m.Sound) (hcopy : m.copy t i = some c)
    (hdirty : c.dirty = true) : (m.writeBack i c).Sound := by
  refine ⟨hm.flushed, hm.titled, hm.dirty, fun u j h => ?_⟩
  by_cases hj : j = i
  · subst hj
    exact .inr ⟨t, c, hcopy, hdirty⟩
  · have hkeep : (m.writeBack i c).owner j = m.owner j := update_of_ne hj _ _
    exact hm.stored u j (hkeep.symm.trans h)

theorem Sound.evict (hm : m.Sound) : (m.evict t i f).Sound := by
  rw [CacheMem.evict]
  cases hcopy : m.copy t i with
  | none =>
    refine hm.drop fun c hc => ?_
    rw [hcopy] at hc
    cases hc
  | some c =>
    show ((if c.dirty then m.writeBack i c else m).setCopy t i none f).Sound
    split
    · rename_i hdirty
      refine (hm.writeBack hcopy hdirty).drop fun d hd _ => ?_
      obtain rfl := Option.some.inj (hcopy.symm.trans hd)
      exact update_self ..
    · rename_i hclean
      refine hm.drop fun d hd hdirty => ?_
      obtain rfl := Option.some.inj (hcopy.symm.trans hd)
      exact absurd hdirty hclean

variable [DecidableEq B]

omit [DecidableEq B] [DecidableEq T] in
theorem owner_setWord {α : Type} {h : Heap T B} {o : Obj B α} {w : Word T α} :
    (h.setWord o w).owner = h.owner := by
  cases o with
  | global => rfl
  | bump => rfl
  | remote i => rfl

/-- Thread `t` names only itself as an owner. -/
def Names (t : T) (β : Type) : Access T B β → Prop
  | .storeOwner _ v => ∀ u ∈ v, u = t
  | _ => True

variable {act : Access T B β}

omit [DecidableEq T] [DecidableEq B] in
theorem names_of_by {r : Rights B (HeapState B)} (h : act.By t r) : Names t β act := by
  cases act with
  | storeOwner i v => exact h
  | _ => trivial

theorem Sound.access {b : β} (hm : m.Sound) (hnames : Names t β act) (hresp : m.Respects t act)
    (hact : access t β act m = .ok (b, m')) : m'.Sound := by
  cases act with
  | loadNext i | loadOwner i | loadClass i | loadBits i =>
    cases hact
    exact hm.fetch hresp
  | storeNext i v | storeClass i v | storeBits i v =>
    cases hact
    exact hm.write (fun _ => rfl) hresp.1 hresp.2
  | storeOwner i v =>
    cases hact
    exact hm.writeOwner hnames hresp
  | flushCxl i =>
    cases hact
    exact hm.evict
  | check p e =>
    rw [CacheMem.access] at hact
    split at hact
    · cases hact
      exact hm
    · cases hact
  | storeWord o w =>
    cases hact
    exact hm.congr owner_setWord rfl rfl rfl
  | casWord o old new =>
    simp only [CacheMem.access, Mem.handle] at hact
    split at hact
    · rename_i hcas
      split at hcas
      · cases hcas
        cases hact
        exact hm.congr owner_setWord rfl rfl rfl
      · cases hcas
        cases hact
        exact hm.congr rfl rfl rfl rfl
    · cases hact
  | panic e => cases hact
  | loadHead s | storeHead s v | loadLen s | storeLen s n | loadWord o | loadHelp i j
  | storeHelp i j v | loadLog u | storeLog u r | scanHelp p | record u e =>
    cases hact
    exact hm.congr rfl rfl rfl rfl

/-! ### The runs -/

/-- An access of a thread that names only itself, or anything else that happens. -/
def Proper (β : Type) : CacheAct T B β → Prop
  | .heap t act => Names t β act
  | _ => True

/-- Every step keeps the invariant, and that is all there is to rely on. -/
def caching (cfg : Config) :
    Protocol (system cfg : System (Option T) (CacheAct T B) (CacheMem T B) Panic) Orderly where
  inv := Sound
  rely _ _ _ := True
  guar _ _ _ := True
  needs _ _ _ _ := True
  rely_refl _ _ := trivial
  rely_trans _ _ _ _ _ _ := trivial
  guar_refl _ _ := trivial
  rely_of_guar _ _ _ _ _ _ _ _ := trivial

variable {cfg : Config} {a : Option T}

theorem does_proper {act : CacheAct T B β} (h : Proper β act) :
    (caching cfg).Does a (fun _ => True) act fun _ _ => True := by
  intro m hm _
  refine ⟨trivial, fun hguard b m' hact => ⟨?_, trivial, trivial⟩⟩
  change Sound m at hm
  show Sound m'
  cases act with
  | heap t act => exact hm.access h hguard hact
  | hand offset =>
    cases hact
    exact hm.congr rfl rfl rfl rfl
  | fetch t i =>
    cases hact
    exact hm.fetch hguard
  | evict t i =>
    cases hact
    exact hm.evict

theorem only_proper {call : CacheCall T B} : ((system cfg).code a call).Only Proper := by
  cases call with
  | allocate c =>
    cases a with
    | none => exact .pure _
    | some t =>
      refine .bind (.hoist ((Heap.by_allocateBlock.only trivial).mono fun _ _ h => names_of_by h))
        fun r => ?_
      cases r with
      | none => exact .pure _
      | some offset => exact .lift trivial
  | free offset =>
    cases a with
    | none => exact .pure _
    | some t => exact .hoist ((Heap.by_free.only trivial).mono fun _ _ h => names_of_by h)
  | fetch t i =>
    cases a with
    | none => exact .lift trivial
    | some u => exact .lift trivial
  | evict t i =>
    cases a with
    | none => exact .lift trivial
    | some u => exact .lift trivial

theorem calls : (caching cfg : Protocol (system (T := T) (B := B) cfg) Orderly).Calls := by
  intro a call m hm _ _
  refine ⟨?_, trivial, ?_⟩
  · cases call with
    | free offset => exact Sound.congr (m := m) hm rfl rfl rfl rfl
    | allocate c => exact hm
    | fetch t i => exact hm
    | evict t i => exact hm
  · exact Protocol.keeps_of_only only_proper (fun _ _ _ _ _ => trivial)
      (fun _ _ h => does_proper h) trivial

end CacheMem

end Cxlalloc
