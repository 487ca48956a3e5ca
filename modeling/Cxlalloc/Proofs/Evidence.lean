/-
What a successful compare-exchange leaves behind.

A thread copies the tag of a word into its row of the help array before it tries to replace
the word, so whoever replaces the word of a successful compare-exchange has recorded it
first (`recorded`).  That evidence lasts as long as nobody records another version of the
same thread over it, and nobody overwrites the word by a plain `store` of something it has
not read (`Kept`).
-/
import Cxlalloc.Proofs.Detectables

namespace Cxlalloc

/-- Whether an object is the head of the global stack. -/
def Obj.isGlobal {B α : Type} : Obj B α → Bool
  | .global => true
  | _ => false

namespace Watched

open Lib
open Lib.Protocol
open Function
open Relation

variable {T B α β : Type} [Bracket B] [DecidableEq T] [DecidableEq B] {t u : T}
  {m m' : Watched T B} {o : Obj B α} {v : Version} {w : Word T α}

/-- The thread has recorded the tag of a word. -/
def Recorded (t : T) (w : Word T α) (m : Watched T B) : Prop :=
  ∀ u, w.id = some u → m.help t u = w.version

/-- Every thread writes its own row of the help array, and records the tag of a word before
it replaces the word. -/
def recorded : Protocol (system : System T (Access T B) _ _) Guard.any where
  inv _ := True
  rely t m m' := m'.help t = m.help t
  guar t m m' := ∀ u, u ≠ t → m'.help u = m.help u
  needs t _ act m :=
    match act with
    | .casWord _ old _ => Recorded t old m
    | _ => True
  rely_refl _ _ := rfl
  rely_trans _ _ _ _ h h' := h'.trans h
  guar_refl _ _ _ _ := rfl
  rely_of_guar t _ _ _ htu _ _ h := h t htu

theorem stable_recorded : (recorded (T := T) (B := B)).Stable t (Recorded t w) := by
  intro m m' _ hR h u hu
  rw [show m'.help t = m.help t from hR]
  exact h u hu

theorem stable_true : (recorded (T := T) (B := B)).Stable t fun _ => True :=
  fun _ _ _ _ _ => trivial

variable {act : Access T B β}

/-- An access that leaves the help array alone. -/
theorem does_of_help_eq {J : Watched T B → Prop} (hneeds : ∀ m, J m → recorded.needs t β act m)
    (hhelp : ∀ m b m', handle t β act m = .ok (b, m') → m'.help = m.help)
    (hJ : ∀ m m', m'.help = m.help → J m → J m') :
    (recorded (T := T) (B := B)).Does t J act fun _ => J := by
  refine fun m _ hm => ⟨hneeds m hm, fun _ b m' hact => ?_⟩
  have h := hhelp m b m' hact
  exact ⟨trivial, fun u _ => by rw [h], hJ m m' h hm⟩

omit [DecidableEq T] [DecidableEq B] in
theorem recorded_congr (h : m'.help = m.help) (hm : Recorded t w m) : Recorded t w m' := by
  intro u hu
  rw [h]
  exact hm u hu

theorem does_storeHelp (hu : w.id = some u) : (recorded (T := T) (B := B)).Does t (fun _ => True)
    (.storeHelp t u w.version) fun _ => Recorded t w := by
  refine fun m _ _ => ⟨trivial, fun _ b m' hact => ?_⟩
  have hhelp : m'.help = update m.help t (update (m.help t) u w.version) := by
    change (.ok (_, note t _ _ _) : Except Panic _) = .ok _ at hact
    obtain ⟨-, rfl⟩ := ok_inj hact
    rw [note]
    split_ifs
    · rfl
    · rfl
  refine ⟨trivial, fun u' hu' => by rw [hhelp, update_of_ne hu'], fun u' hu' => ?_⟩
  obtain rfl := Option.some.inj (hu.symm.trans hu')
  rw [hhelp, update_self, update_self]

theorem keeps_record : recorded.Keeps t (Detectable.help t w) (fun _ => Recorded t w) m := by
  refine Detectable.keeps_help stable_true stable_recorded ?_ (fun _ => does_storeHelp) trivial
  intro hnone m _ _ u hu
  rw [hnone] at hu
  cases hu

theorem does_plain_recorded (hplain : act.plain = true) :
    (recorded (T := T) (B := B)).Does t (Recorded t w) act fun _ => Recorded t w := by
  refine does_of_help_eq (fun m _ => ?_) (fun m b m' hact => (alike_of_plain hplain hact).help)
    fun _ _ => recorded_congr
  cases act with
  | casWord => cases hplain
  | _ => trivial

theorem does_casWord_recorded {a : α} : (recorded (T := T) (B := B)).Does t (Recorded t w)
    (.casWord o w { id := some t, version := v, inner := a }) fun _ => Recorded t w := by
  refine does_of_help_eq (fun _ h => h) (fun m b m' hact => ?_) fun _ _ => recorded_congr
  by_cases hw : m.word o = w
  · cases (handle_casWord_ok hw).symm.trans hact
    rfl
  · cases (handle_casWord_err hw).symm.trans hact
    rfl

theorem round_recorded (next : Next T B α) : Detectable.Round recorded t o v next.run
    (fun _ _ => True) (Recorded t) (fun w _ => Recorded t w) (fun w _ => Recorded t w)
    (fun _ _ => True) where
  stable_seen _ := stable_true
  stable_helped _ := stable_recorded
  stable_ready _ _ := stable_recorded
  stable_tried _ _ := stable_recorded
  stable_return _ := stable_true
  panic _ _ _ _ := trivial
  help _ _ _ _ := keeps_record
  next w m _ hw := by
    refine (keeps_of_only (next.plain w.inner v) stable_recorded
      (fun _ act hplain => does_plain_recorded hplain) hw).mono fun r m' h => ?_
    exact ⟨fun _ => trivial, fun _ _ => h⟩
  log _ _ := does_of_help_eq (fun _ _ => trivial) (fun m b m' h => by cases h; rfl)
    fun _ _ => recorded_congr
  cas _ _ := does_casWord_recorded.mono (fun _ h => h)
    fun _ _ _ => ⟨fun _ => trivial, fun _ _ => trivial⟩

theorem calls_recorded : (recorded (T := T) (B := B)).Calls := by
  intro t c m _ _ _
  have hload : ∀ {α : Type} (o : Obj B α), (recorded (T := T) (B := B)).Does t (fun _ => True)
      (.loadWord o) fun _ _ => True :=
    fun o => does_of_help_eq (fun _ _ => trivial) (fun m b m' h => by cases h; rfl)
      fun _ _ _ _ => trivial
  cases c with
  | load o =>
    refine ⟨trivial, fun _ _ => rfl, keeps_bind ((Detectable.keeps_load stable_true
      (fun _ => stable_recorded) (hload o) (fun _ _ _ _ => keeps_record) trivial).mono
      fun _ _ _ => keeps_pure stable_true trivial)⟩
  | store o a =>
    have hstore : (recorded (T := T) (B := B)).Does t (fun _ => True)
        (.storeWord o { id := some t, version := 0, inner := a }) fun _ _ => True :=
      does_of_help_eq (fun _ _ => trivial) (fun m b m' h => by cases h; rfl)
        fun _ _ _ _ => trivial
    exact ⟨trivial, fun _ _ => rfl, Detectable.keeps_store stable_true
      (fun _ => stable_recorded) stable_true (hload o) (fun _ _ _ _ => keeps_record)
      (fun w => hstore.mono (fun _ _ => trivial) fun _ _ h => h) trivial⟩
  | update retry o next =>
    refine ⟨trivial, fun _ _ => rfl, keeps_bind ((Detectable.keeps_update stable_true
      (fun _ => stable_true) (fun _ => stable_true) ?_ (fun v => ?_) (fun _ => hload o)
      (fun _ => round_recorded next) trivial).mono fun _ _ _ => keeps_pure stable_true trivial)⟩
    · exact does_of_help_eq (fun _ _ => trivial) (fun m b m' h => by cases h; rfl)
        fun _ _ _ _ => trivial
    · exact (does_storeHelp (w := { id := some t, version := v.next, inner := () }) rfl).mono
        (fun _ h => h) fun _ _ _ => trivial

/-! ### The evidence lasts -/

/-- There is evidence that the compare-exchange of `t` on `o` with version `v` succeeded. -/
def Evident (t : T) (o : Obj B α) (v : Version) (m : Watched T B) : Prop :=
  (m.word o).tag = (some t, v) ∨ ∃ u, u ≠ t ∧ m.help u t = v

/-- Nobody records another version of `t` over `v`, and nobody stores over a word with
version `v` of `t` without having recorded it. -/
def Kept (t : T) (v : Version) : Guard T (Access T B) (Watched T B) :=
  fun u _ act m =>
    match act with
    | .storeHelp i j v' => j = t → m.help i t = v → v' = v
    | .storeWord o _ => (m.word o).tag = (some t, v) → m.help u t = v
    | _ => True

omit [DecidableEq T] [DecidableEq B] in
/-- A word is replaced by somebody who has recorded its tag. -/
theorem Evident.setWord {α' : Type} {o' : Obj B α'} {w' : Word T α'} {p : T → Bool}
    (h : Evident t o v m) (hu : u ≠ t)
    (hrecorded : (m.word o').tag = (some t, v) → m.help u t = v) :
    Evident t o v { m with toHeap := m.setWord o' w', pending := p } := by
  rcases h with htag | hrow
  · rcases m.word_setWord o' w' o with hsame | ⟨-, htags⟩
    · left
      show (Heap.word (m.setWord o' w') o).tag = _
      rw [hsame]
      exact htag
    · exact .inr ⟨u, hu, hrecorded (htags.symm.trans htag)⟩
  · exact .inr hrow

omit [DecidableEq T] [DecidableEq B] in
theorem Evident.alike (h : Evident t o v m) (ha : m.Alike m') : Evident t o v m' := by
  rcases h with htag | ⟨u, hu, hrow⟩
  · exact .inl (by rw [ha.word]; exact htag)
  · exact .inr ⟨u, hu, by rw [ha.help]; exact hrow⟩

/-- What one access of another thread does to the evidence. -/
theorem Evident.access {b : β} (h : Evident t o v m) (hu : u ≠ t)
    (hneeds : recorded.needs u β act m) (hkept : Kept t v u β act m)
    (hact : handle u β act m = .ok (b, m')) : Evident t o v m' := by
  cases hplain : act.plain with
  | true => exact h.alike (alike_of_plain hplain hact)
  | false =>
    cases act with
    | storeHelp i j v' =>
      have hm' : m'.toHeap = m.toHeap ∧
          m'.help = update m.help i (update (m.help i) j v') := by
        change (.ok (_, note u _ _ _) : Except Panic _) = .ok _ at hact
        obtain ⟨-, rfl⟩ := ok_inj hact
        rw [note]
        split_ifs
        · exact ⟨rfl, rfl⟩
        · exact ⟨rfl, rfl⟩
      rcases h with htag | ⟨x, hx, hrow⟩
      · exact .inl (by rw [hm'.1]; exact htag)
      · refine .inr ⟨x, hx, ?_⟩
        rw [hm'.2]
        by_cases hi : x = i
        · subst hi
          rw [update_self]
          by_cases hj : t = j
          · subst hj
            rw [update_self]
            exact hkept rfl hrow
          · rw [update_of_ne hj]
            exact hrow
        · rw [update_of_ne hi]
          exact hrow
    | storeWord o' w' =>
      cases hact
      exact h.setWord hu hkept
    | casWord o' old new =>
      by_cases hw : m.word o' = old
      · cases (handle_casWord_ok hw).symm.trans hact
        refine h.setWord hu fun htag => ?_
        obtain ⟨hid, hversion⟩ := Prod.mk.inj htag
        rw [← hversion, hw]
        exact hneeds t (hw ▸ hid)
      · cases (handle_casWord_err hw).symm.trans hact
        exact h
    | loadWord | loadHelp | loadLog | storeLog | scanHelp =>
      cases hact
      exact h
    | _ => cases hplain

/-- **A successful compare-exchange leaves evidence** for as long as its thread takes no
further step, if nobody records another version of the thread over it and nobody stores over
the word without having recorded it. -/
theorem success_leaves_evidence {w₁ w₂ w₃ : Threads T B}
    (hrun : ReflTransGen (Pool.Steps system Guard.any) (Pool.idle zeroed) w₁)
    {k : Option (Word T α) → Prog (Access T B) Unit} {a : α}
    (hprog : w₁.prog t = .step (.casWord o w { id := some t, version := v, inner := a }) k)
    (hword : w₁.mem.word o = w) (hcas : Pool.Step system Guard.any t w₁ w₂)
    (hlater : ReflTransGen (Pool.Without system (Kept t v) t) w₂ w₃) :
    (w₃.mem.word o).tag = (some t, v) ∨ ∃ u, u ≠ t ∧ w₃.mem.help u t = v := by
  have hgood₁ := Protocol.run calls_recorded (good_idle trivial fun _ _ _ _ => trivial) hrun
  have hgood₂ := (hgood₁.step calls_recorded trivial hcas).1
  have hevident : Evident t o v w₂.mem := by
    cases hcas with
    | call c hidle => cases hprog.symm.trans hidle
    | access hprog' _ hact =>
      cases hprog.symm.trans hprog'
      cases (handle_casWord_ok hword).symm.trans hact
      left
      show (Heap.word (w₁.mem.setWord o _) o).tag = _
      rw [Heap.word_setWord_self]
      rfl
  clear hcas hword hprog
  suffices hboth : recorded.Good w₃ ∧ Evident t o v w₃.mem from hboth.2
  induction hlater with
  | refl => exact ⟨hgood₂, hevident⟩
  | tail _ hstep ih =>
    obtain ⟨hgood, h⟩ := ih
    obtain ⟨u, hu, hstep⟩ := hstep
    refine ⟨(hgood.step calls_recorded trivial (hstep.mono fun _ _ _ _ _ => trivial)).1, ?_⟩
    cases hstep with
    | call c => cases c <;> exact h
    | access hprog hkept hact => exact h.access hu (hgood.needs trivial hprog) hkept hact

/-! ### Two threads push -/

instance (t u : T) (v : Version) (β : Type) (act : Access T B β) (m : Watched T B) :
    Decidable (Kept t v u β act m) := by
  apply Act.casesOn (motive := fun β act => Decidable (Kept t v u β act m)) act
  all_goals intros; unfold Kept; infer_instance

/-- Thread `t` is about to replace the global word by one with version `v`. -/
def pushing (t : T) (v : Version) (x : Threads T B) : Bool :=
  match x.prog t with
  | .step (.casWord o old new) _ =>
    o.isGlobal && (o.decidableEq (x.mem.word o) old).decide && decide (new.tag = (some t, v))
  | _ => false

omit [DecidableEq B] in
theorem exists_of_pushing {x : Threads T B} (h : pushing t v x = true) : ∃ old a k,
    x.prog t = .step (.casWord Obj.global old { id := some t, version := v, inner := a }) k ∧
      x.mem.word .global = old := by
  unfold pushing at h
  split at h
  · rename_i o old new k hprog
    simp only [Bool.and_eq_true] at h
    obtain ⟨⟨hglobal, hold⟩, hnew⟩ := h
    obtain ⟨id, version, a⟩ := new
    obtain ⟨rfl, rfl⟩ := Prod.mk.inj (of_decide_eq_true hnew)
    cases o with
    | global => exact ⟨old, a, k, hprog, of_decide_eq_true hold⟩
    | bump => cases hglobal
    | remote i => cases hglobal
  · cases h

/-- Thread `t` pushes a slab on the global stack, and performs `n` accesses of it. -/
def pushes (t : Fin 2) (n : ℕ) : List (Pool.Move (system (T := Fin 2) (B := Large))) :=
  [.call t (.update 0 .global (.push .min .min)), .go t n]

/-- Thread 0 pushes with version `v` after one script, and the others play the next. -/
theorem exists_of_pushed (g : Guard (Fin 2) (Act (Fin 2) Large (HeapState Large)) _)
    [∀ t β act s, Decidable (g t β act s)] (v : Version)
    (before after : List (Pool.Move (system (T := Fin 2) (B := Large))))
    (p : Threads (Fin 2) Large → Prop) [DecidablePred p]
    (hothers : ∀ m ∈ after, m.thread ≠ 0)
    (h : ((Pool.play system Guard.any before (Pool.idle zeroed)).any fun w₁ =>
      pushing 0 v w₁ && (Pool.go system Guard.any 0 1 w₁).any fun w₂ =>
        (Pool.play system g after w₂).any fun w₃ => p w₃) = true) :
    ∃ (w₁ w₂ w₃ : Threads (Fin 2) Large) (old : _) (a : _) (k : _),
      ReflTransGen (Pool.Steps system Guard.any) (Pool.idle zeroed) w₁ ∧
      w₁.prog 0 = .step (.casWord Obj.global old { id := some 0, version := v, inner := a }) k ∧
      w₁.mem.word .global = old ∧ Pool.Step system Guard.any 0 w₁ w₂ ∧
      ReflTransGen (Pool.Without system g 0) w₂ w₃ ∧ p w₃ := by
  obtain ⟨w₁, hbefore, h⟩ := (Option.any_eq_true _ _).mp h
  obtain ⟨hpushing, h⟩ := Bool.and_eq_true_iff.mp h
  obtain ⟨w₂, hgo, h⟩ := (Option.any_eq_true _ _).mp h
  obtain ⟨w₃, hafter, hp⟩ := (Option.any_eq_true _ _).mp h
  obtain ⟨old, a, k, hprog, hold⟩ := exists_of_pushing hpushing
  exact ⟨w₁, w₂, w₃, old, a, k, Pool.play_steps hbefore, hprog, hold, Pool.go_one hprog hgo,
    Pool.play_without hothers hafter, of_decide_eq_true hp⟩

/-- Thread 0 pushes a slab and stops; thread 1 pushes one on top of it. -/
theorem success_leaves_evidence_pushed : ∃ w : Threads (Fin 2) Large,
    w.mem.global.tag = (some 1, 1) ∧
      ((w.mem.word .global).tag = (some 0, 1) ∨ ∃ u, u ≠ 0 ∧ w.mem.help u 0 = 1) := by
  obtain ⟨_, _, w, _, _, _, hrun, hprog, hword, hcas, hlater, htag⟩ :=
    exists_of_pushed (Kept 0 1) 1 (pushes 0 5) (pushes 1 7)
      (fun w => w.mem.global.tag = (some 1, 1)) (by decide) (by decide +kernel)
  exact ⟨w, htag, success_leaves_evidence hrun hprog hword hcas hlater⟩

/-- Thread 0 bumps, pushes a slab and stops.  Thread 1 pushes one on top of it, and then
reads the bump pointer: it records the older version of thread 0 in the same cell. -/
theorem success_leaves_no_evidence : ∃ (w₁ w₂ w₃ : Threads (Fin 2) Large) (old : _) (a : _)
    (k : _), ReflTransGen (Pool.Steps system Guard.any) (Pool.idle zeroed) w₁ ∧
      w₁.prog 0 = .step (.casWord Obj.global old { id := some 0, version := 2, inner := a }) k ∧
      w₁.mem.word .global = old ∧ Pool.Step system Guard.any 0 w₁ w₂ ∧
      ReflTransGen (Pool.Without system Guard.any 0) w₂ w₃ ∧
      (w₃.mem.word .global).tag ≠ (some 0, 2) ∧ ∀ u, u ≠ 0 → w₃.mem.help u 0 ≠ 2 := by
  exact exists_of_pushed Guard.any 2 (bumps 0 5 ++ pushes 0 5)
    (pushes 1 7 ++ [.call 1 (.load Obj.bump), .go 1 2])
    (fun w => (w.mem.word .global).tag ≠ (some 0, 2) ∧ ∀ u, u ≠ 0 → w.mem.help u 0 ≠ 2)
    (by decide) (by decide +kernel)

end Watched

end Cxlalloc
