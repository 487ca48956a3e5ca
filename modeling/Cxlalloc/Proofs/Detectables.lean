/-
What `detect` has to go by.

A thread takes the version of an update from its own cell of the help array, and announces
the next one there.  Were that cell written by announcements only, its value would be the
number of updates begun, and no two updates of a thread would have the same version before
the counter wraps around.  But the cell is also where the thread records the tag of a word
it wrote itself.  `Numbered` is the invariant of the runs in which that never sets it back
(`OwnLatest`): every tag is the number of an update that was begun, and of one that
succeeded unless a later one has begun since.
-/
import Cxlalloc.Proofs.Update
import Cxlalloc.Proofs.Quiescent

namespace Cxlalloc

open Lib
open Lib.Protocol
open Lib.Prog
open Function
open Relation

variable {T B α β : Type} [Bracket B]

/-- Who wrote a word, and with which version. -/
def Word.tag (w : Word T α) : Option T × Version :=
  (w.id, w.version)

theorem Heap.word_setWord_self (h : Heap T B) (o : Obj B α) (w : Word T α) :
    (h.setWord o w).word o = w := by
  cases o with
  | global => rfl
  | bump => rfl
  | remote i => exact update_self i w h.remote

/-- A write to one word leaves the others. -/
theorem Heap.word_setWord {α' : Type} (h : Heap T B) (o : Obj B α) (w : Word T α) (o' : Obj B α') :
    (h.setWord o w).word o' = h.word o' ∨
      ((h.setWord o w).word o').tag = w.tag ∧ (h.word o').tag = (h.word o).tag := by
  cases o with
  | global => cases o' with
    | global => exact .inr ⟨rfl, rfl⟩
    | bump => exact .inl rfl
    | remote j => exact .inl rfl
  | bump => cases o' with
    | global => exact .inl rfl
    | bump => exact .inr ⟨rfl, rfl⟩
    | remote j => exact .inl rfl
  | remote i => cases o' with
    | global => exact .inl rfl
    | bump => exact .inl rfl
    | remote j =>
      by_cases hj : j = i
      · subst hj
        exact .inr ⟨congrArg Word.tag (h.word_setWord_self (.remote j) w), rfl⟩
      · exact .inl (update_of_ne hj _ _)

/-- A write of the help array. -/
def Act.helps : Access T B β → Bool
  | .storeHelp _ _ _ => true
  | _ => false

namespace Watched

variable [DecidableEq T] [DecidableEq B] {t u : T} {m m' : Watched T B} {o : Obj B α}
  {v : Version} {w : Word T α} {n : ℕ} {p : Bool}

/-! ### The accesses -/

/-- A thread writes its cell for another. -/
def withHelp (m : Watched T B) (t u : T) (v : Version) : Watched T B :=
  { m with help := update m.help t (update (m.help t) u v) }

theorem handle_storeHelp (hcalling : m.calling t = false) :
    handle t Unit (.storeHelp t u v) m = .ok ((), m.withHelp t u v) := by
  simp [handle, note, Mem.handle, withHelp, hcalling]

/-- The announcement of an update. -/
theorem handle_announce (hcalling : m.calling t = true) :
    handle t Unit (.storeHelp t t v) m = .ok ((),
      { m.withHelp t t v with
        calling := update m.calling t false
        begun := update m.begun t (m.begun t + 1)
        pending := update m.pending t true }) := by
  simp [handle, note, Mem.handle, withHelp, hcalling]

theorem handle_casWord_ok {old new : Word T α} (h : m.word o = old) :
    handle t _ (.casWord o old new) m = .ok (none,
      { m with toHeap := m.setWord o new, pending := update m.pending t false }) := by
  have hdec : (o.decidableEq (m.word o) old).decide = true := by simpa using h
  simp only [handle, Mem.handle, hdec, if_true]
  rfl

theorem handle_casWord_err {old new : Word T α} (h : m.word o ≠ old) :
    handle t _ (.casWord o old new) m = .ok (some (m.word o), m) := by
  have hdec : (o.decidableEq (m.word o) old).decide = false := by simpa using h
  simp only [handle, Mem.handle, hdec]
  rfl

/-- Everything the help array, the words and the records have to do with is as it was. -/
structure Alike (m m' : Watched T B) : Prop where
  word : ∀ {α : Type} (o : Obj B α), m'.word o = m.word o
  help : m'.help = m.help
  calling : m'.calling = m.calling
  begun : m'.begun = m.begun
  pending : m'.pending = m.pending
  logged : m'.logged = m.logged

omit [DecidableEq T] [DecidableEq B] in
theorem Alike.refl (m : Watched T B) : m.Alike m :=
  ⟨fun _ => rfl, rfl, rfl, rfl, rfl, rfl⟩

variable {act : Access T B β}

/-- A plain access leaves all that alone. -/
theorem alike_of_plain {b : β} (hplain : act.plain = true)
    (hact : handle t β act m = .ok (b, m')) : m.Alike m' := by
  have hword : ∀ {h h' : Heap T B}, h'.global = h.global → h'.bump = h.bump →
      h'.remote = h.remote → ∀ {α : Type} (o : Obj B α), h'.word o = h.word o := by
    intro h h' hg hb hr α o
    cases o with
    | global => exact hg
    | bump => exact hb
    | remote i => exact congrFun hr i
  cases act with
  | loadWord | storeWord | casWord | loadHelp | storeHelp | loadLog | storeLog | scanHelp =>
    cases hplain
  | check p e =>
    simp only [handle, Mem.handle] at hact
    split_ifs at hact with hp
    cases hact
    exact .refl m
  | panic e => exact b.elim
  | _ =>
    cases hact
    exact ⟨hword rfl rfl rfl, rfl, rfl, rfl, rfl, rfl⟩

/-! ### The numbers of the updates -/

/-- A number of an update of `t` that can be found in a tag: one that was begun, and not the
last one while it has not succeeded. -/
def Spent (m : Watched T B) (t : T) (n : ℕ) : Prop :=
  n ≤ m.begun t ∧ (m.pending t = true → n < m.begun t)

/-- A version is the number of an update, as far as 16 bits hold it. -/
def Stamp (m : Watched T B) (t : T) (v : Version) : Prop :=
  ∃ n, v = BitVec.ofNat 16 n ∧ m.Spent t n

/-- The versions are the numbers of the updates. -/
structure Numbered (m : Watched T B) : Prop where
  cell : ∀ t, m.help t t = BitVec.ofNat 16 (m.begun t)
  word : ∀ {α : Type} (o : Obj B α) t, (m.word o).id = some t → m.Stamp t (m.word o).version
  row : ∀ u t, u ≠ t → m.Stamp t (m.help u t)
  logged : ∀ t v, m.logged t = some v → m.help t t = v
  pending : ∀ t, m.pending t = true → 0 < m.begun t

/-- Where thread `t` stands has not changed. -/
structure Same (t : T) (m m' : Watched T B) : Prop where
  help : m'.help t = m.help t
  calling : m'.calling t = m.calling t
  begun : m'.begun t = m.begun t
  pending : m'.pending t = m.pending t
  logged : m'.logged t = m.logged t

/-- The numbers found in tags may still be found there. -/
def Ages (m m' : Watched T B) : Prop :=
  ∀ t n, m.Spent t n → m'.Spent t n

omit [DecidableEq T] [DecidableEq B] in
theorem Same.refl (t : T) (m : Watched T B) : Same t m m :=
  ⟨rfl, rfl, rfl, rfl, rfl⟩

omit [DecidableEq T] [DecidableEq B] in
theorem Same.trans {m'' : Watched T B} (h : Same t m m') (h' : Same t m' m'') : Same t m m'' :=
  ⟨h'.help.trans h.help, h'.calling.trans h.calling, h'.begun.trans h.begun,
    h'.pending.trans h.pending, h'.logged.trans h.logged⟩

omit [DecidableEq T] [DecidableEq B] in
theorem Ages.stamp (h : Ages m m') (hv : m.Stamp t v) : m'.Stamp t v := by
  obtain ⟨n, hn, hspent⟩ := hv
  exact ⟨n, hn, h t n hspent⟩

/-- A compare-exchange writes the version in the cell of a thread whose update is still to
succeed, and a store writes version 0. -/
def Tags : Guard T (Access T B) (Watched T B) :=
  fun t _ act m =>
    match act with
    | .casWord _ _ new => new.tag = (some t, m.help t t) ∧ m.pending t = true
    | .storeWord _ w => w.tag = (some t, 0)
    | _ => True

/-- The threads keep their versions in order, if none of them is set back. -/
def numbered : Protocol (system : System T (Access T B) _ _) OwnLatest where
  inv := Numbered
  rely t m m' := Same t m m' ∧ Ages m m'
  guar t m m' := (∀ u, u ≠ t → Same u m m') ∧ Ages m m'
  needs := Tags
  rely_refl t m := ⟨.refl t m, fun _ _ h => h⟩
  rely_trans _ _ _ _ h h' := ⟨h.1.trans h'.1, fun u n hn => h'.2 u n (h.2 u n hn)⟩
  guar_refl _ m := ⟨fun u _ => .refl u m, fun _ _ h => h⟩
  rely_of_guar t _ _ _ htu _ _ h := ⟨h.1 t htu, h.2⟩

/-- The thread has announced `v`, which its cell still holds. -/
def Announced (t : T) (v : Version) (p : Bool) (m : Watched T B) : Prop :=
  m.help t t = v ∧ m.calling t = false ∧ m.pending t = p

/-- The thread has read a word. -/
def Seen (t : T) (v : Version) (p : Bool) (w : Word T α) (m : Watched T B) : Prop :=
  Announced t v p m ∧ ∀ u, w.id = some u →
    (u = t → w.version = v) ∧ (u ≠ t → m.Stamp u w.version)

theorem stable_announced : (numbered (T := T) (B := B)).Stable t (Announced t v p) := by
  rintro m m' - ⟨hsame, -⟩ ⟨hcell, hcalling, hpending⟩
  exact ⟨by rw [hsame.help, hcell], by rw [hsame.calling, hcalling], by rw [hsame.pending, hpending]⟩

theorem stable_seen : (numbered (T := T) (B := B)).Stable t (Seen t v p w) := by
  rintro m m' hI hR ⟨hv, hw⟩
  refine ⟨stable_announced m m' hI hR hv, fun u hu => ⟨(hw u hu).1, fun hne => ?_⟩⟩
  exact hR.2.stamp ((hw u hu).2 hne)

/-! ### What the accesses do to the numbers -/

variable {J' : β → Watched T B → Prop}

/-- An access, given by its answer and what it makes of the memory. -/
theorem does_of_handle {f : Watched T B → β}
    {e : Watched T B → Watched T B} {J : Watched T B → Prop}
    (hneeds : ∀ m, Tags t β act m) (hact : ∀ m, J m → handle t β act m = .ok (f m, e m))
    (h : ∀ m, Numbered m → J m → OwnLatest t β act m →
      Numbered (e m) ∧ (∀ u, u ≠ t → Same u m (e m)) ∧ Ages m (e m) ∧ J' (f m) (e m)) :
    (numbered (T := T) (B := B)).Does t J act J' := by
  refine fun m hI hJ => ⟨hneeds m, fun hg b m' hb => ?_⟩
  obtain ⟨rfl, rfl⟩ := ok_inj ((hact m hJ).symm.trans hb)
  obtain ⟨hI', hsame, hages, hJ'⟩ := h m hI hJ hg
  exact ⟨hI', ⟨hsame, hages⟩, hJ'⟩

/-- An access that changes nothing. -/
theorem does_read {f : Watched T B → β} {J : Watched T B → Prop} (hneeds : ∀ m, Tags t β act m)
    (hact : ∀ m, handle t β act m = .ok (f m, m))
    (hread : ∀ m, Numbered m → J m → OwnLatest t β act m → J' (f m) m) :
    (numbered (T := T) (B := B)).Does t J act J' :=
  does_of_handle hneeds (fun m _ => hact m) fun m hI hJ hg =>
    ⟨hI, fun u _ => .refl u m, fun _ _ h => h, hread m hI hJ hg⟩

theorem does_loadWord :
    (numbered (T := T) (B := B)).Does t (Announced t v p) (.loadWord o) (Seen t v p) := by
  refine does_read (f := fun m => m.word o) (fun _ => trivial) (fun _ => rfl) fun m hI hJ hg =>
    ⟨hJ, fun u hu => ?_⟩
  refine ⟨?_, fun _ => hI.word o u hu⟩
  rintro rfl
  exact (hg hu).trans hJ.1

omit [DecidableEq B] in
/-- The tag of another thread's word is a number that may be found. -/
theorem numbered_withHelp (hI : Numbered m) (hself : u = t → v = m.help t t)
    (hother : u ≠ t → m.Stamp u v) : Numbered (m.withHelp t u v) := by
  have hcell : ∀ t', (m.withHelp t u v).help t' t' = m.help t' t' := by
    intro t'
    show update m.help t _ t' t' = _
    by_cases ht : t' = t
    · subst ht
      rw [update_self]
      by_cases hu : t' = u
      · subst hu
        rw [update_self]
        exact hself rfl
      · rw [update_of_ne hu]
    · rw [update_of_ne ht]
  refine ⟨fun t' => (hcell t').trans (hI.cell t'), hI.word, fun u' t' hne => ?_,
    fun t' v' h => (hcell t').trans (hI.logged t' v' h), hI.pending⟩
  show m.Stamp t' (update m.help t (update (m.help t) u v) u' t')
  by_cases ht : u' = t
  · subst ht
    rw [update_self]
    by_cases hu : t' = u
    · subst hu
      rw [update_self]
      exact hother hne.symm
    · rw [update_of_ne hu]
      exact hI.row u' t' hne
  · rw [update_of_ne ht]
    exact hI.row u' t' hne

omit [DecidableEq B] in
theorem same_withHelp {t' : T} (hne : t' ≠ t) : Same t' m (m.withHelp t u v) :=
  ⟨update_of_ne hne _ _, rfl, rfl, rfl, rfl⟩

theorem keeps_help (hs : Seen t v p w m) :
    numbered.Keeps t (Detectable.help t w) (fun _ => Announced t v p) m := by
  refine Detectable.keeps_help stable_seen stable_announced (fun _ _ _ h => h.1) ?_ hs
  intro u hu
  refine does_of_handle (f := fun _ => ()) (fun _ => trivial)
    (fun m hJ => handle_storeHelp hJ.1.2.1) ?_
  rintro m hI ⟨⟨hcell, hrest⟩, htag⟩ -
  obtain ⟨hself, hother⟩ := htag u hu
  have hself' : u = t → w.version = m.help t t := fun h => (hself h).trans hcell.symm
  refine ⟨numbered_withHelp hI hself' hother, fun _ => same_withHelp, fun _ _ h => h, ?_, hrest⟩
  show update m.help t _ t t = v
  rw [update_self]
  by_cases htu : t = u
  · subst htu
    rw [update_self]
    exact hself rfl
  · rw [update_of_ne htu, hcell]

/-- The thread has called `update`. -/
def Called (t : T) (m : Watched T B) : Prop :=
  m.calling t = true ∧ m.logged t = none

theorem stable_called : (numbered (T := T) (B := B)).Stable t (Called t) := by
  rintro m m' - ⟨hsame, -⟩ ⟨hcalling, hlogged⟩
  exact ⟨by rw [hsame.calling, hcalling], by rw [hsame.logged, hlogged]⟩

theorem stable_version :
    (numbered (T := T) (B := B)).Stable t fun m => Called t m ∧ m.help t t = v := by
  rintro m m' hI hR ⟨hcalled, hv⟩
  exact ⟨stable_called m m' hI hR hcalled, by rw [hR.1.help, hv]⟩

/-- The announcement makes the versions found so far older than the last one. -/
theorem does_announce : (numbered (T := T) (B := B)).Does t
    (fun m => Called t m ∧ m.help t t = v) (.storeHelp t t v.next)
    fun _ => Announced t v.next true := by
  refine does_of_handle (f := fun _ => ()) (fun _ => trivial) (fun m hJ => handle_announce hJ.1.1) ?_
  rintro m hI ⟨⟨hcalling, hlogged⟩, rfl⟩ -
  have hnext : (m.help t t).next = BitVec.ofNat 16 (m.begun t + 1) := by
    rw [hI.cell t, Version.next, BitVec.ofNat_add]
    rfl
  have hhelp : ∀ t', t' ≠ t → update m.help t (update (m.help t) t (m.help t t).next) t'
      = m.help t' := fun t' ht => update_of_ne ht _ _
  have hown : update m.help t (update (m.help t) t (m.help t t).next) t t = (m.help t t).next := by
    rw [update_self, update_self]
  have hbegun : ∀ t', m.begun t' ≤ update m.begun t (m.begun t + 1) t' := by
    intro t'
    by_cases ht : t' = t
    · subst ht
      rw [update_self]
      exact Nat.le_succ _
    · rw [update_of_ne ht]
  set m' : Watched T B := { m.withHelp t t (m.help t t).next with
    calling := update m.calling t false
    begun := update m.begun t (m.begun t + 1)
    pending := update m.pending t true } with hm'
  have hages : Ages m m' := by
    intro t' n hn
    refine ⟨hn.1.trans (hbegun t'), fun hp => ?_⟩
    by_cases ht : t' = t
    · subst ht
      show n < update m.begun t' (m.begun t' + 1) t'
      rw [update_self]
      exact Nat.lt_succ_of_le hn.1
    · refine lt_of_lt_of_le (hn.2 ?_) (hbegun t')
      rw [← hp]
      exact (update_of_ne ht _ _).symm
  refine ⟨⟨?_, fun o t' h => hages.stamp (hI.word o t' h), ?_, ?_, ?_⟩, ?_, hages, hown,
    update_self _ _ _, update_self _ _ _⟩
  · intro t'
    by_cases ht : t' = t
    · subst ht
      show update m.help t' _ t' t' = BitVec.ofNat 16 (update m.begun t' _ t')
      rw [hown, hnext, update_self]
    · show update m.help t _ t' t' = BitVec.ofNat 16 (update m.begun t _ t')
      rw [hhelp t' ht, update_of_ne ht, hI.cell]
  · intro u' t' hne
    refine hages.stamp ?_
    show m.Stamp t' (update m.help t _ u' t')
    by_cases ht : u' = t
    · subst ht
      rw [update_self, update_of_ne hne.symm]
      exact hI.row u' t' hne
    · rw [hhelp u' ht]
      exact hI.row u' t' hne
  · intro t' v' h
    by_cases ht : t' = t
    · subst ht
      exact absurd (h.symm.trans hlogged) (by simp)
    · show update m.help t _ t' t' = v'
      rw [hhelp t' ht]
      exact hI.logged t' v' h
  · intro t' hp
    by_cases ht : t' = t
    · subst ht
      show 0 < update m.begun t' _ t'
      rw [update_self]
      exact Nat.succ_pos _
    · have hp' : m.pending t' = true := by
        rw [← hp]
        exact (update_of_ne ht _ _).symm
      exact lt_of_lt_of_le (hI.pending t' hp') (hbegun t')
  · exact fun t' ht =>
      ⟨hhelp t' ht, update_of_ne ht _ _, update_of_ne ht _ _, update_of_ne ht _ _, rfl⟩

/-- The record carries the version in the cell. -/
theorem does_storeLog {r : HeapState B} (hr : r.version = some v) :
    (numbered (T := T) (B := B)).Does t (Announced t v p) (.storeLog t (some r))
      fun _ => Announced t v p := by
  refine does_of_handle (f := fun _ => ()) (fun _ => trivial) (fun _ _ => rfl) ?_
  rintro m hI ⟨hcell, hrest⟩ -
  refine ⟨⟨hI.cell, hI.word, hI.row, fun t' v' h => ?_, hI.pending⟩, fun t' ht => ?_,
    fun _ _ h => h, hcell, hrest⟩
  · by_cases ht : t' = t
    · subst ht
      change update m.logged t' r.version t' = some v' at h
      rw [update_self, hr] at h
      exact hcell.trans (Option.some.inj h)
    · refine hI.logged t' v' (Eq.trans ?_ h)
      exact (update_of_ne ht _ _).symm
  · exact ⟨rfl, rfl, rfl, rfl, update_of_ne ht _ _⟩

omit [DecidableEq T] [DecidableEq B] in
/-- A word with a tag that may be found is written, and the thread's update may be over. -/
theorem numbered_setWord {p : T → Bool} (hI : Numbered m)
    (hp : ∀ t', p t' = true → m.pending t' = true)
    (hw : ∀ u, w.id = some u → Stamp { m with pending := p } u w.version) :
    Numbered { m with toHeap := m.setWord o w, pending := p } ∧
      Ages m { m with toHeap := m.setWord o w, pending := p } := by
  have hages : Ages m { m with toHeap := m.setWord o w, pending := p } :=
    fun t' n hn => ⟨hn.1, fun h => hn.2 (hp t' h)⟩
  refine ⟨⟨hI.cell, fun o' u hu => ?_, fun u t' hne => hages.stamp (hI.row u t' hne), hI.logged,
    fun t' h => hI.pending t' (hp t' h)⟩, hages⟩
  show Stamp _ u (Heap.word (m.setWord o w) o').version
  rcases m.word_setWord o w o' with hsame | ⟨htag, -⟩
  · have hu' : (m.word o').id = some u := hsame ▸ hu
    rw [hsame]
    exact hages.stamp (hI.word o' u hu')
  · obtain ⟨hid, hversion⟩ := Prod.mk.inj htag
    rw [hversion]
    exact hw u (hid.symm.trans hu)

theorem does_storeWord {a : α} : (numbered (T := T) (B := B)).Does t (Announced t v p)
    (.storeWord o { id := some t, version := 0, inner := a }) fun _ => Announced t v p := by
  refine does_of_handle (f := fun _ => ()) (fun _ => rfl) (fun _ _ => rfl) fun m hI hJ _ => ?_
  have hzero : m.Stamp t 0 := ⟨0, rfl, Nat.zero_le _, hI.pending t⟩
  obtain ⟨hI', hages⟩ := numbered_setWord (o := o) (w := { id := some t, version := 0, inner := a })
    (p := m.pending) hI (fun _ h => h) fun u hu => Option.some.inj hu ▸ hzero
  exact ⟨hI', fun _ _ => ⟨rfl, rfl, rfl, rfl, rfl⟩, hages, hJ⟩

omit [DecidableEq B] in
theorem of_update_false {f : T → Bool} (h : update f t false u = true) : f u = true := by
  by_cases hu : u = t
  · subst hu
    rw [update_self] at h
    cases h
  · rwa [update_of_ne hu] at h

theorem does_casWord {a : α} : (numbered (T := T) (B := B)).Does t (Announced t v true)
    (.casWord o w { id := some t, version := v, inner := a })
    fun r m => ∀ w', r = some w' → Seen t v true w' m := by
  intro m hI hJ
  refine ⟨⟨congrArg (some t, ·) hJ.1.symm, hJ.2.2⟩, fun hg b m' hact => ?_⟩
  by_cases hw : m.word o = w
  · obtain ⟨rfl, rfl⟩ := ok_inj ((handle_casWord_ok hw).symm.trans hact)
    have hcell : v = BitVec.ofNat 16 (m.begun t) := hJ.1.symm.trans (hI.cell t)
    -- the version announced last may be found from now on
    have hlast : Stamp { m with pending := update m.pending t false } t v :=
      ⟨m.begun t, hcell, le_rfl, fun h => absurd (h.symm.trans (update_self _ _ _)) (by simp)⟩
    obtain ⟨hI', hages⟩ := numbered_setWord (o := o)
      (w := { id := some t, version := v, inner := a }) (p := update m.pending t false) hI
      (fun _ => of_update_false)
      fun u hu => Option.some.inj hu ▸ hlast
    exact ⟨hI', ⟨fun u hu => ⟨rfl, rfl, rfl, update_of_ne hu _ _, rfl⟩, hages⟩, by simp⟩
  · obtain ⟨rfl, rfl⟩ := ok_inj ((handle_casWord_err hw).symm.trans hact)
    refine ⟨hI, numbered.guar_refl t m, ?_⟩
    rintro w' hw'
    obtain rfl := Option.some.inj hw'
    refine ⟨hJ, fun u hu => ⟨?_, fun _ => hI.word o u hu⟩⟩
    rintro rfl
    exact (hg hw hu).trans hJ.1

omit [DecidableEq T] [DecidableEq B] in
theorem tags_of_plain (hplain : act.plain = true) : Tags t β act m := by
  cases act <;> trivial

theorem does_plain (hplain : act.plain = true) :
    (numbered (T := T) (B := B)).Does t (Announced t v p) act fun _ => Announced t v p := by
  refine fun m hI hJ => ⟨tags_of_plain hplain, fun _ b m' hact => ?_⟩
  have h := alike_of_plain hplain hact
  have hspent : ∀ t' n, m'.Spent t' n ↔ m.Spent t' n := by
    intro t' n
    rw [Spent, Spent, h.begun, h.pending]
  have hstamp : ∀ {t' v'}, m.Stamp t' v' → m'.Stamp t' v' :=
    fun ⟨n, hn, hs⟩ => ⟨n, hn, (hspent _ n).mpr hs⟩
  refine ⟨⟨?_, ?_, ?_, ?_, ?_⟩, ⟨fun u _ => ?_, fun t' n => (hspent t' n).mpr⟩, ?_, ?_⟩
  · exact fun t' => by rw [h.help, h.begun, hI.cell]
  · exact fun o' u hu => by rw [h.word o'] at hu ⊢; exact hstamp (hI.word o' u hu)
  · exact fun u t' hne => by rw [h.help]; exact hstamp (hI.row u t' hne)
  · exact fun t' v' hv => by rw [h.help]; exact hI.logged t' v' (h.logged ▸ hv)
  · exact fun t' hp => by rw [h.begun]; exact hI.pending t' (h.pending ▸ hp)
  · exact ⟨by rw [h.help], by rw [h.calling], by rw [h.begun], by rw [h.pending], by rw [h.logged]⟩
  · exact h.help ▸ hJ.1
  · exact ⟨h.calling ▸ hJ.2.1, h.pending ▸ hJ.2.2⟩

/-! ### The calls -/

theorem round (next : Next T B α) : Detectable.Round numbered t o v next.run (Seen t v true)
    (fun _ => Announced t v true) (fun _ r m => Announced t v true m ∧ r.2.version = some v)
    (fun _ _ => Announced t v true) (fun _ _ => True) where
  stable_seen _ := stable_seen
  stable_helped _ := stable_announced
  stable_ready _ _ := fun m m' hI hR h => ⟨stable_announced m m' hI hR h.1, h.2⟩
  stable_tried _ _ := stable_announced
  stable_return _ := fun _ _ _ _ _ => trivial
  panic _ _ _ _ := trivial
  help _ _ _ h := keeps_help h
  next w m _ hJ := by
    have hkeeps := keeps_of_only (next.plain w.inner v) stable_announced
      (fun _ act hplain => does_plain hplain) hJ
    refine (hkeeps.yields (next.carries w.inner v)).mono fun r m' h => ⟨fun _ => trivial, ?_⟩
    exact fun p hp => ⟨h.1, h.2 p hp⟩
  log w p m hI hJ := does_storeLog hJ.2 m hI hJ.1
  cas _ _ := does_casWord.mono (fun _ h => h) fun _ _ h => ⟨fun _ => trivial, h⟩

omit [DecidableEq T] [DecidableEq B] in
theorem numbered_call {c f : T → Bool} {l : T → Option Version} (hI : Numbered m)
    (hf : ∀ t', f t' = true → m.pending t' = true)
    (hl : ∀ t' v, l t' = some v → m.logged t' = some v) :
    Numbered { m with calling := c, pending := f, logged := l } ∧
      Ages m { m with calling := c, pending := f, logged := l } := by
  have hages : Ages m { m with calling := c, pending := f, logged := l } :=
    fun t' n hn => ⟨hn.1, fun h => hn.2 (hf t' h)⟩
  exact ⟨⟨hI.cell, fun o u hu => hages.stamp (hI.word o u hu),
    fun u t' hne => hages.stamp (hI.row u t' hne), fun t' v h => hI.logged t' v (hl t' v h),
    fun t' h => hI.pending t' (hf t' h)⟩, hages⟩

theorem numbered_callOther (hI : Numbered m) : Numbered (m.callOther t) ∧
    numbered.guar t m (m.callOther t) ∧ Announced t (m.help t t) (m.pending t) (m.callOther t) := by
  obtain ⟨hI', hages⟩ := numbered_call (c := update m.calling t false) hI (fun _ h => h)
    fun _ _ h => h
  exact ⟨hI', ⟨fun u hu => ⟨rfl, update_of_ne hu _ _, rfl, rfl, rfl⟩, hages⟩, rfl,
    update_self _ _ _, rfl⟩

theorem numbered_callUpdate (hI : Numbered m) : Numbered (m.callUpdate t) ∧
    numbered.guar t m (m.callUpdate t) ∧ Called t (m.callUpdate t) := by
  have hlogged : ∀ t' v, update m.logged t none t' = some v → m.logged t' = some v := by
    intro t' v h
    by_cases ht : t' = t
    · subst ht
      rw [update_self] at h
      cases h
    · rwa [update_of_ne ht] at h
  obtain ⟨hI', hages⟩ := numbered_call (c := update m.calling t true) hI (fun _ => of_update_false)
    hlogged
  exact ⟨hI', ⟨fun u hu => ⟨rfl, update_of_ne hu _ _, rfl, update_of_ne hu _ _,
    update_of_ne hu _ _⟩, hages⟩, update_self _ _ _, update_self _ _ _⟩

theorem keeps_update {retry : ℕ} (next : Next T B α) (hm : Called t m) :
    numbered.Keeps t (Detectable.update retry t o next.run) (fun _ _ => True) m :=
  Detectable.keeps_update stable_called (fun _ => stable_version) (fun _ => stable_announced)
    (does_read (fun _ => by exact trivial) (fun _ => rfl) fun _ _ h _ => ⟨h, rfl⟩)
    (fun _ => does_announce) (fun _ => does_loadWord) (fun _ => round next) hm

theorem calls_numbered : (numbered (T := T) (B := B)).Calls := by
  intro t c m hI _ _
  cases c with
  | load o =>
    obtain ⟨hI', hG, hJ⟩ := numbered_callOther (t := t) hI
    refine ⟨hI', hG, keeps_bind ((Detectable.keeps_load stable_announced (fun _ => stable_announced)
      does_loadWord (fun _ _ _ => keeps_help) hJ).mono fun _ _ _ => ?_)⟩
    exact keeps_pure (fun _ _ _ _ h => h) trivial
  | store o a =>
    obtain ⟨hI', hG, hJ⟩ := numbered_callOther (t := t) hI
    refine ⟨hI', hG, (Detectable.keeps_store stable_announced (fun _ => stable_announced)
      stable_announced does_loadWord (fun _ _ _ => keeps_help) (fun _ => does_storeWord)
      hJ).mono fun _ _ _ => trivial⟩
  | update retry o next =>
    obtain ⟨hI', hG, hJ⟩ := numbered_callUpdate (t := t) hI
    refine ⟨hI', hG, keeps_bind ((keeps_update next hJ).mono fun _ _ _ => ?_)⟩
    exact keeps_pure (fun _ _ _ _ h => h) trivial

omit [DecidableEq T] [DecidableEq B] in
theorem numbered_zeroed : Numbered (zeroed : Watched T B) where
  cell _ := rfl
  word o t h := by cases o <;> cases h
  row _ _ _ := ⟨0, rfl, le_rfl, fun h => by cases h⟩
  logged _ _ h := by cases h
  pending _ h := by cases h

/-- The versions are in order along every run in which no thread sets itself back. -/
theorem numbered_run {w : Threads T B}
    (hrun : ReflTransGen (Pool.Steps system OwnLatest) (Pool.idle zeroed) w) : w.mem.Numbered :=
  (Protocol.run calls_numbered (good_idle numbered_zeroed fun _ _ _ _ => trivial) hrun).inv

/-! ### What recovery goes by -/

/-- **The assertion of `detect` holds** in every run in which no thread reads a word of its
own with an older version than its latest: the cell of a thread that stopped holds the
version of its last record, whatever the others do. -/
theorem detect_finds_own_version [Fintype T] {w : Threads T B}
    (hrun : ReflTransGen (Pool.Steps system OwnLatest) (Pool.idle zeroed) w)
    (hlogged : w.mem.logged t = some v) (o : Obj B α) :
    w.mem.help t t = v ∧
      wp Mem.handle (Detectable.detect t o v) (fun _ _ => True) (fun _ => False) w.mem.toMem := by
  have hcell := (numbered_run hrun).logged t v hlogged
  refine ⟨hcell, ?_⟩
  rw [wp_detect, if_pos hcell]
  trivial

/-- **No false positive** in such runs, while the versions last: the version of an update
whose compare-exchange has not succeeded is in no word, and in nobody else's row. -/
theorem no_false_positive {w : Threads T B}
    (hrun : ReflTransGen (Pool.Steps system OwnLatest) (Pool.idle zeroed) w)
    (hfew : ∀ u, w.mem.begun u < 2 ^ 16) (hlogged : w.mem.logged t = some v)
    (hpending : w.mem.pending t = true) :
    (∀ {α : Type} (o : Obj B α), (w.mem.word o).tag ≠ (some t, v)) ∧
      ∀ u, u ≠ t → w.mem.help u t ≠ v := by
  have hI := numbered_run hrun
  have hv : v = BitVec.ofNat 16 (w.mem.begun t) :=
    (hI.logged t v hlogged).symm.trans (hI.cell t)
  have hstamp : ¬ w.mem.Stamp t v := by
    rintro ⟨n, hn, -, hlt⟩
    have hlt := hlt hpending
    have hmod := congrArg BitVec.toNat (hv.symm.trans hn)
    rw [BitVec.toNat_ofNat, BitVec.toNat_ofNat, Nat.mod_eq_of_lt (hfew t),
      Nat.mod_eq_of_lt (hlt.trans (hfew t))] at hmod
    exact hlt.ne' hmod
  refine ⟨fun o htag => hstamp ?_, fun u hne hu => hstamp ?_⟩
  · obtain ⟨hid, hversion⟩ := Prod.mk.inj htag
    exact hversion ▸ hI.word o t hid
  · exact hu ▸ hI.row u t hne

/-! ### A thread that bumps again and again -/

/-- Thread `t` takes slabs from the bump pointer, and performs `n` accesses of it. -/
def bumps (t : Fin 2) (n : ℕ) : List (Pool.Move (system (T := Fin 2) (B := Large))) :=
  [.call t (.update 0 .bump (.bump (Config.initial false))), .go t n]

/-- The threads bump in turns, and thread 0 stops before its second compare-exchange. -/
theorem detect_finds_own_version_turns : ∃ w : Threads (Fin 2) Large,
    w.mem.logged 0 = some 2 ∧ w.mem.help 0 0 = 2 ∧
      wp Mem.handle (Detectable.detect 0 Obj.bump 2) (fun _ _ => True) (fun _ => False)
        w.mem.toMem := by
  have hplay : (Pool.play system OwnLatest (bumps 0 5 ++ bumps 1 6 ++ bumps 0 5)
      (Pool.idle zeroed)).any (fun w => w.mem.logged 0 = some 2) = true := by decide +kernel
  obtain ⟨w, hrun, hlogged⟩ := Pool.exists_of_play hplay
  exact ⟨w, hlogged, detect_finds_own_version hrun hlogged .bump⟩

/-- Thread 0 bumps twice in a row.  The second time it reads the word of the first, and
records its version over the one it has announced. -/
theorem detect_panics : ∃ w : Threads (Fin 2) Large,
    ReflTransGen (Pool.Steps system Guard.any) (Pool.idle zeroed) w ∧
      w.mem.logged 0 = some 2 ∧ w.mem.help 0 0 = 1 ∧
      wp Mem.handle (Detectable.detect 0 Obj.bump 2) (fun _ _ => False) (· = .detectVersion)
        w.mem.toMem := by
  have hplay : (Pool.play system Guard.any (bumps 0 5 ++ bumps 0 5) (Pool.idle zeroed)).any
      (fun w => w.mem.logged 0 = some 2 ∧ w.mem.help 0 0 = 1) = true := by decide +kernel
  obtain ⟨w, hrun, hlogged, hcell⟩ := Pool.exists_of_play hplay
  refine ⟨w, hrun, hlogged, hcell, ?_⟩
  rw [wp_detect, if_neg]
  rw [hcell]
  decide

/-- The threads bump in turns, and thread 0 stops before its second compare-exchange. -/
theorem no_false_positive_turns : ∃ w : Threads (Fin 2) Large,
    w.mem.logged 0 = some 2 ∧ w.mem.pending 0 = true ∧ w.mem.bump.tag = (some 1, 1) ∧
      (∀ {α : Type} (o : Obj Large α), (w.mem.word o).tag ≠ (some 0, 2)) ∧
      ∀ u, u ≠ 0 → w.mem.help u 0 ≠ 2 := by
  have hplay : (Pool.play system OwnLatest (bumps 0 5 ++ bumps 1 6 ++ bumps 0 5)
      (Pool.idle zeroed)).any (fun w => w.mem.logged 0 = some 2 ∧ w.mem.pending 0 = true ∧
        w.mem.bump.tag = (some 1, 1) ∧ ∀ u, w.mem.begun u < 2 ^ 16) = true := by decide +kernel
  obtain ⟨w, hrun, hlogged, hpending, htag, hfew⟩ := Pool.exists_of_play hplay
  exact ⟨w, hlogged, hpending, htag,
    no_false_positive hrun hfew hlogged hpending⟩

/-- Thread 0 bumps three times in a row.  Its own cell was set back to 1, so the third update
has the version of the second, which is in the word. -/
theorem false_positive : ∃ w : Threads (Fin 2) Large,
    ReflTransGen (Pool.Steps system Guard.any) (Pool.idle zeroed) w ∧
      (∀ u, w.mem.begun u < 2 ^ 16) ∧ w.mem.logged 0 = some 2 ∧ w.mem.pending 0 = true ∧
      w.mem.bump.tag = (some 0, 2) := by
  have hplay : (Pool.play system Guard.any (bumps 0 5 ++ bumps 0 6 ++ bumps 0 5)
      (Pool.idle zeroed)).any (fun w => (∀ u, w.mem.begun u < 2 ^ 16) ∧
        w.mem.logged 0 = some 2 ∧ w.mem.pending 0 = true ∧ w.mem.bump.tag = (some 0, 2)) = true := by
    decide +kernel
  obtain ⟨w, hrun, h⟩ := Pool.exists_of_play hplay
  exact ⟨w, hrun, h⟩

/-! ### The versions a thread publishes -/

/-- What a step of thread `u` adds to the versions `t` has published. -/
def published (t u : T) (w : Threads T B) : List Version :=
  if u = t ∧ w.mem.calling t = true then
    match w.prog t with
    | .step (.storeHelp _ _ v) _ => [v]
    | _ => []
  else []

/-- A run, with the versions that `t` publishes along it. -/
inductive Publishes (g : Guard T (Access T B) (Watched T B)) (t : T) :
    Threads T B → List Version → Threads T B → Prop
  | refl (w : Threads T B) : Publishes g t w [] w
  | step {w w₁ w₂ : Threads T B} {vs : List Version} {u : T} (h : Publishes g t w vs w₁)
      (hstep : Pool.Step system g u w₁ w₂) : Publishes g t w (vs ++ published t u w₁) w₂

/-- Another access than a help store counts nothing. -/
theorem begun_of_handle {b : β} (hact : handle t β act m = .ok (b, m'))
    (hhelp : act.helps = false) : m'.begun = m.begun := by
  cases hplain : act.plain with
  | true => exact (alike_of_plain hplain hact).begun
  | false =>
    cases act with
    | storeHelp => cases hhelp
    | casWord o old new =>
      by_cases hw : m.word o = old
      · cases (handle_casWord_ok hw).symm.trans hact
        rfl
      · cases (handle_casWord_err hw).symm.trans hact
        rfl
    | loadWord | storeWord | loadHelp | loadLog | storeLog | scanHelp =>
      cases hact
      rfl
    | _ => cases hplain

/-- A help store of a thread that has called `update` is its announcement. -/
theorem announce_eq {i j : T} (hI : Numbered m) (hcalling : m.calling t = true)
    (hact : handle t Unit (.storeHelp i j v) m = .ok ((), m')) (hI' : Numbered m') :
    m'.begun t = m.begun t + 1 ∧ v = BitVec.ofNat 16 (m.begun t + 1) := by
  obtain rfl : m' = { m with
      help := update m.help i (update (m.help i) j v)
      calling := update m.calling t false
      begun := update m.begun t (m.begun t + 1)
      pending := update m.pending t true } := by
    simp only [handle, note, Mem.handle, hcalling, if_true] at hact
    exact (ok_inj hact).2.symm
  have hbegun : update m.begun t (m.begun t + 1) t = m.begun t + 1 := update_self _ _ _
  have hcell : update m.help i (update (m.help i) j v) t t = BitVec.ofNat 16 (m.begun t + 1) :=
    hbegun ▸ hI'.cell t
  refine ⟨hbegun, ?_⟩
  -- were it another cell, the thread's own would still hold the last number
  have hold : m.help t t ≠ BitVec.ofNat 16 (m.begun t + 1) := by
    rw [hI.cell t, BitVec.ofNat_add]
    intro h
    have := BitVec.self_eq_add_right.mp h
    exact absurd this (by decide)
  by_cases hi : t = i
  · subst hi
    rw [update_self] at hcell
    by_cases hj : t = j
    · subst hj
      rwa [update_self] at hcell
    · rw [update_of_ne hj] at hcell
      exact absurd hcell hold
  · rw [update_of_ne hi] at hcell
    exact absurd hcell hold

/-- What one step publishes is the number it counts. -/
theorem begun_step {u : T} {w₁ w₂ : Threads T B} (hw : numbered.Good w₁)
    (hstep : Pool.Step system OwnLatest u w₁ w₂) :
    published t u w₁ = [] ∧ w₂.mem.begun t = w₁.mem.begun t ∨
      published t u w₁ = [BitVec.ofNat 16 (w₁.mem.begun t + 1)] ∧
        w₂.mem.begun t = w₁.mem.begun t + 1 := by
  obtain ⟨hw₂, hguar⟩ := hw.step calls_numbered trivial hstep
  by_cases hu : u = t
  · subst hu
    cases hstep with
    | call c hidle =>
      refine .inl ⟨by simp [published, hidle], ?_⟩
      cases c <;> rfl
    | access hprog hguard hact =>
      rename_i act k b m'
      change handle u _ act w₁.mem = .ok (b, m') at hact
      cases act with
      | storeHelp i j v =>
        by_cases hcalling : w₁.mem.calling u = true
        · obtain ⟨hcount, hv⟩ := announce_eq hw.inv hcalling hact hw₂.inv
          exact .inr ⟨by simp [published, hprog, hcalling, hv], hcount⟩
        · refine .inl ⟨by simp [published, hcalling], ?_⟩
          have hfalse : w₁.mem.calling u = false := by simpa using hcalling
          simp only [handle, note, Mem.handle, hfalse] at hact
          rw [← (ok_inj hact).2]
          rfl
      | _ => exact .inl ⟨by simp [published, hprog], congrFun (begun_of_handle hact rfl) u⟩
  · exact .inl ⟨by simp [published, hu], (hguar.1 t (Ne.symm hu)).begun⟩

/-- The versions published along a run are the numbers that follow. -/
theorem Publishes.eq_map {w w' : Threads T B} {vs : List Version} (hw : numbered.Good w)
    (h : Publishes OwnLatest t w vs w') : numbered.Good w' ∧
      w'.mem.begun t = w.mem.begun t + vs.length ∧
      vs = (List.range vs.length).map fun i => BitVec.ofNat 16 (w.mem.begun t + i + 1) := by
  induction h with
  | refl => exact ⟨hw, rfl, rfl⟩
  | step _ hstep ih =>
    obtain ⟨hw₁, hcount, hvs⟩ := ih
    refine ⟨(hw₁.step calls_numbered trivial hstep).1, ?_⟩
    rcases begun_step hw₁ hstep with ⟨hnone, hsame⟩ | ⟨hone, hnext⟩
    · rw [hnone, List.append_nil]
      exact ⟨hsame.trans hcount, hvs⟩
    · rw [hone, hnext, hcount]
      refine ⟨by simp [Nat.add_assoc], ?_⟩
      rw [List.length_append, List.length_singleton, List.range_succ, List.map_append, ← hvs]
      rfl

/-- **No version is published twice** in `2 ^ 16 - 1` consecutive updates of a thread, in
runs in which it is never set back. -/
theorem versions_distinct {w w' : Threads T B} {vs : List Version}
    (hrun : ReflTransGen (Pool.Steps system OwnLatest) (Pool.idle zeroed) w)
    (hpublishes : Publishes OwnLatest t w vs w') (hlen : vs.length ≤ 2 ^ 16 - 1) : vs.Nodup := by
  have hw := Protocol.run calls_numbered (good_idle numbered_zeroed fun _ _ _ _ => trivial) hrun
  obtain ⟨-, -, hvs⟩ := hpublishes.eq_map hw
  rw [hvs]
  refine List.Nodup.map_on (fun i hi j hj hij => ?_) List.nodup_range
  have hi := List.mem_range.mp hi
  have hj := List.mem_range.mp hj
  have hmod := congrArg BitVec.toNat hij
  rw [BitVec.toNat_ofNat, BitVec.toNat_ofNat] at hmod
  omega

/-- Up to `n` accesses of thread `u`, and the versions that `t` publishes. -/
def goPublish (g : Guard T (Access T B) (Watched T B))
    [∀ t β act s, Decidable (g t β act s)] (t u : T) :
    ℕ → Threads T B × List Version → Option (Threads T B × List Version)
  | 0, r => some r
  | n + 1, (w, vs) =>
    (Pool.go system g u 1 w).bind fun w' => goPublish g t u n (w', vs ++ published t u w)

/-- A script, and the versions that `t` publishes. -/
def trace (g : Guard T (Access T B) (Watched T B))
    [∀ t β act s, Decidable (g t β act s)] (t : T) :
    List (Pool.Move (system (T := T) (B := B))) → Threads T B × List Version →
      Option (Threads T B × List Version)
  | [], r => some r
  | .call u c :: ms, (w, vs) =>
    (Pool.move system g w (.call u c)).bind fun w' => trace g t ms (w', vs)
  | .go u n :: ms, r => (goPublish g t u n r).bind (trace g t ms)

section

variable {g : Guard T (Access T B) (Watched T B)}
  [∀ t β act s, Decidable (g t β act s)] {w₀ : Threads T B} {r r' : Threads T B × List Version}

theorem publishes_goPublish {n : ℕ} (h : Publishes g t w₀ r.2 r.1)
    (hgo : goPublish g t u n r = some r') : Publishes g t w₀ r'.2 r'.1 := by
  induction n generalizing r with
  | zero =>
    obtain rfl := Option.some.inj hgo
    exact h
  | succ n ih =>
    obtain ⟨w, vs⟩ := r
    obtain ⟨w', hone, hrest⟩ := Option.bind_eq_some_iff.mp hgo
    refine ih ?_ hrest
    cases hprog : w.prog u with
    | ret a =>
      -- nothing is left to run
      rw [Pool.go, hprog] at hone
      obtain rfl := Option.some.inj hone
      have hnone : published t u w = [] := by
        unfold published
        split_ifs with hu
        · rw [← hu.1, hprog]
        · rfl
      rw [hnone, List.append_nil]
      exact h
    | step act k => exact h.step (Pool.go_one hprog hone)

theorem publishes_trace {ms : List (Pool.Move (system (T := T) (B := B)))}
    (h : Publishes g t w₀ r.2 r.1) (htrace : trace g t ms r = some r') :
    Publishes g t w₀ r'.2 r'.1 := by
  induction ms generalizing r with
  | nil =>
    obtain rfl := Option.some.inj htrace
    exact h
  | cons move ms ih =>
    cases move with
    | call u c =>
      obtain ⟨w, vs⟩ := r
      obtain ⟨w', hcall, hrest⟩ := Option.bind_eq_some_iff.mp htrace
      refine ih ?_ hrest
      rw [Pool.move] at hcall
      split at hcall
      · rename_i hidle
        split_ifs at hcall with hlegal
        obtain rfl := Option.some.inj hcall
        have hstep := h.step (Pool.Step.call c hidle hlegal)
        have hnone : published t u w = [] := by
          unfold published
          split_ifs with hu
          · rw [← hu.1, hidle]
          · rfl
        rwa [hnone, List.append_nil] at hstep
      · cases hcall
    | go u n =>
      obtain ⟨r₁, hgo, hrest⟩ := Option.bind_eq_some_iff.mp htrace
      exact ih (publishes_goPublish h hgo) hrest

end

/-- The threads bump in turns; thread 0 publishes 1 and 2. -/
theorem versions_distinct_turns : ∃ w' : Threads (Fin 2) Large,
    Publishes OwnLatest 0 (Pool.idle zeroed) [1, 2] w' ∧ ([1, 2] : List Version).Nodup := by
  have htrace : ((trace OwnLatest 0 (bumps 0 5 ++ bumps 1 6 ++ bumps 0 6)
      (Pool.idle zeroed, [])).any fun r : Threads (Fin 2) Large × List Version => r.2 = [1, 2])
      = true := by decide +kernel
  obtain ⟨⟨w', vs⟩, htrace, hvs⟩ := (Option.any_eq_true _ _).mp htrace
  obtain rfl : vs = [1, 2] := of_decide_eq_true hvs
  have h := publishes_trace (.refl _) htrace
  exact ⟨w', h, versions_distinct .refl h (by decide)⟩

/-- Thread 0 bumps three times in a row, and publishes version 2 twice. -/
theorem versions_repeat : ∃ w' : Threads (Fin 2) Large,
    Publishes Guard.any 0 (Pool.idle zeroed) [1, 2, 2] w' ∧ ¬([1, 2, 2] : List Version).Nodup := by
  have htrace : ((trace Guard.any 0 (bumps 0 5 ++ bumps 0 6 ++ bumps 0 6)
      (Pool.idle zeroed, [])).any fun r : Threads (Fin 2) Large × List Version => r.2 = [1, 2, 2])
      = true := by decide +kernel
  obtain ⟨⟨w', vs⟩, htrace, hvs⟩ := (Option.any_eq_true _ _).mp htrace
  obtain rfl : vs = [1, 2, 2] := of_decide_eq_true hvs
  exact ⟨w', publishes_trace (.refl _) htrace, by decide⟩

end Watched

end Cxlalloc
