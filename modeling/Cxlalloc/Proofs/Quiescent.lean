/-
Recovery of a thread that has nothing to recover.

Between two calls the record of a thread is one of a few, because the small paths clear it
and the others leave what their last transition wrote (`RecordOk`).  For each of them it is
worked out here whether running its recovery again leaves the heap alone: `Harmless` says
when, and the answer is an equivalence.  The huge heap only rebuilds its volatile part,
which never fails.
-/
import Cxlalloc.Proofs.Allocator
import Cxlalloc.Proofs.HugeFocus

namespace Cxlalloc

open Lib
open Lib.Prog
open Cxlalloc.Bracket
open Function
open Relation

section Heap

variable {T B R α γ : Type} [Bracket B] [DecidableEq T] [DecidableEq B]

/-- What `detect` tests: the version is the last one the thread announced, and the word
carries it or a second row of the help array does. -/
def Mem.Detected [Fintype T] (m : Mem T B R) (t : T) (o : Obj B γ) (version : Version) : Prop :=
  m.help t t = version ∧ ((m.word o).id = some t ∧ (m.word o).version = version ∨
    Detectable.observed t version m.help = true)

instance [Fintype T] (m : Mem T B R) (t : T) (o : Obj B γ) (version : Version) :
    Decidable (m.Detected t o version) :=
  inferInstanceAs (Decidable (_ ∧ _))

/-- The records whose recovery leaves a quiescent heap alone. -/
def Mem.Harmless [Fintype T] (m : Mem T B R) (t : T) : HeapState B → Prop
  | .unsizedToSized index _ => index = none
  | .unsizedToGlobal _ version => m.Detected t .global version
  | .remote index version last => m.Detected t (.remote index) version ∧
      (last = true → m.stackIsValid (.unsized t) = true)
  | _ => False

instance [Fintype T] (m : Mem T B R) (t : T) : (r : HeapState B) → Decidable (m.Harmless t r)
  | .unsizedToSized index _ => inferInstanceAs (Decidable (index = none))
  | .unsizedToGlobal _ version => inferInstanceAs (Decidable (m.Detected t .global version))
  | .remote index version last => inferInstanceAs (Decidable (m.Detected t (.remote index) version ∧
      (last = true → m.stackIsValid (.unsized t) = true)))
  | .globalToUnsized .. | .bumpToUnsized .. | .unsizedToGlobalSave .. | .sizedToApplication ..
  | .applicationToSized .. | .detach .. => inferInstanceAs (Decidable False)

variable {cfg : Config} {t : T} {i : Index B} {m m' : Mem T B R} {a : Ledger T B}
  {Q : α → Mem T B R → Prop} {E : Panic → Prop} {p : Code T B R α}

/-! ### What the parts of recovery do when nobody disturbs -/

theorem wp_detect [Fintype T] {o : Obj B γ} {v : Version} {Q : Bool → Mem T B R → Prop} :
    wp Mem.handle (Detectable.detect t o v) Q E m ↔
      if m.help t t = v then Q (decide (m.Detected t o v)) m else E .detectVersion := by
  simp only [Detectable.detect, wp_bind, wp_loadHelp, wp_ite]
  by_cases hv : m.help t t = v
  · simp only [hv, ne_eq, not_true_eq_false, if_false, if_true, wp_loadWord,
      wp_scanHelp, wp_pure, Mem.Detected, true_and]
    by_cases hword : (m.word o).id = some t ∧ (m.word o).version = v
    · simp [hword]
    · simp [hword]
  · simp only [ne_eq, hv, not_false_eq_true, if_true, if_false]
    exact wp_panic

variable {head : Option (Index B)}

theorem wp_count {fuel : ℕ} {xs : List (Index B)}
    {Q : ℕ → Mem T B R → Prop} (hseg : Seg m.next head xs none) (hfuel : xs.length < fuel)
    (hQ : Q xs.length m) : wp Mem.handle (Stack.count fuel head) Q E m := by
  induction fuel generalizing head xs Q with
  | zero => omega
  | succ fuel ih =>
    cases xs with
    | nil =>
      obtain rfl : head = none := hseg
      exact hQ
    | cons i xs =>
      obtain ⟨rfl, hseg⟩ := hseg
      simp only [Stack.count, wp_bind, wp_loadNext]
      rw [List.length_cons] at hfuel
      exact ih hseg (by omega) hQ

/-- A program that writes no remote counter. -/
theorem wp_of_by (hp : Built t { remote := False } p) :
    wp Mem.handle p (fun _ m' => m'.remote = m.remote) (fun _ => True) m := by
  unfold wp
  cases hx : p.exec Mem.handle m with
  | ok r => exact Mem.remote_of_by (hp.only trivial) id hx
  | error e => exact trivial

/-- Setting the head of a stack, then counting it. -/
theorem wp_reset {s : StackId T B} : wp Mem.handle
    (do
      Stack.set s head 0
      Stack.recoverLen s : Code T B R Unit) (fun _ m' => m'.head s = head) (fun _ => True) m := by
  -- counting changes no head
  have hcount : ∀ (fuel : ℕ) (head : Option (Index B)) (m : Mem T B R),
      wp Mem.handle (Stack.count fuel head) (fun _ m' => m' = m) (fun _ => True) m := by
    intro fuel
    induction fuel with
    | zero =>
      intro head m
      exact wp_panic.mpr trivial
    | succ fuel ih =>
      intro head m
      cases head with
      | none => exact rfl
      | some i =>
        simp only [Stack.count, wp_bind, wp_loadNext]
        exact wp_mono (ih _ m) (fun _ _ h => h) fun _ h => h
  simp only [wp_bind, Stack.wp_set, Stack.recoverLen, wp_loadHead]
  refine wp_mono (hcount _ _ _) ?_ fun _ h => h
  rintro n m' rfl
  simp only [wp_storeLen]
  exact update_self ..

variable [FromState B R]

/-- Freeing remotely takes one from the counter, whatever comes after. -/
theorem wp_freeRemote_changes : wp Mem.handle (Heap.freeRemote cfg t i)
    (fun _ m' => m'.toHeap ≠ m.toHeap) (fun _ => True) m := by
  have hrest : ∀ (c : B) (m' : Mem T B R), (m'.remote i).inner ≠ (m.remote i).inner →
      wp Mem.handle (Heap.claim cfg t c i) (fun _ m'' => m''.toHeap ≠ m.toHeap)
        (fun _ => True) m' := by
    intro c m' hne
    refine wp_mono (wp_of_by (Heap.by_claim (fun _ => trivial) fun _ => trivial))
      (fun _ m'' heq hsame => hne ?_) fun _ h => h
    rw [← heq, hsame]
  simp only [Heap.freeRemote, wp_bind, wp_loadClass, wp_record]
  refine wp_update ?_
  rw [wp_ite]
  split
  · rw [wp_bind]
    exact wp_panic.mpr trivial
  · rw [wp_bind]
    unfold checkedSub
    split
    · rename_i hpos
      refine ⟨by simp [Heap.word], ?_⟩
      dsimp only
      rw [wp_unwrap_some, wp_ite]
      have hne : (⟨(m.remote i).inner.free - 1⟩ : Remote) ≠ (m.remote i).inner := by
        intro heq
        have hfree := congrArg Remote.free heq
        have hpos : 1 ≤ (m.remote i).inner.free := hpos
        dsimp only at hfree
        omega
      split
      · exact hrest _ _ (by simpa [Heap.setWord, Heap.word] using hne)
      · intro hsame
        have hremote := congrArg (fun h => (h.remote i).inner) hsame
        exact hne (by simpa [Heap.setWord, Heap.word] using hremote)
    · exact wp_panic.mpr trivial

/-- A slab that was claimed and stayed on the unsized stack: the stack is counted again,
and is not over full. -/
theorem wp_recover_claimed [Fintype T] {v : Version} {Q : Unit → Mem T B R → Prop}
    (inv : Inv cfg m.toHeap a) (hd : m.Detected t (.remote i) v)
    (hhead : m.head (.unsized t) = some i) (hlen : m.len (.unsized t) ≤ cfg.cacheLocal)
    (hQ : let n := (a.chain (some (.unsized t))).length
      Q () { m with len := update m.len (.unsized t) n }) :
    wp Mem.handle (Heap.recoverHeap cfg t (.remote i v true)) Q E m := by
  have hseg : Seg m.next (m.head (.unsized t)) (a.chain (some (.unsized t))) none :=
    inv.chains.seg (some (.unsized t))
  have hle := inv.lens (.unsized t)
  simp only [Heap.recoverHeap, wp_bind]
  rw [wp_detect, if_pos hd.1]
  simp only [hd, decide_true, if_true, wp_bind, Stack.recoverPush, wp_loadHead, hhead,
    ne_eq, not_true_eq_false, if_false, Stack.recoverLen]
  rw [hhead] at hseg
  refine wp_count hseg (inv.length_lt _) ?_
  simp only [wp_storeLen, Heap.unsizedToGlobal, wp_bind, wp_loadLen, update_self]
  rw [if_pos (by omega)]
  exact hQ

/-- **Recovery of a quiescent heap leaves it alone exactly when the record is harmless.** -/
theorem recoverHeap_iff [Fintype T] [LawfulBracket B] (inv : Inv cfg m.toHeap a)
    {r : HeapState B} (hr : RecordOk cfg t m.toHeap r) :
    (∃ m', (Heap.recoverHeap cfg t r).exec Mem.handle m = .ok ((), m') ∧ m'.toHeap = m.toHeap) ↔
      m.Harmless t r := by
  -- the two ways to answer: the run returns and keeps the heap, or cannot do both
  have hyes : wp Mem.handle (Heap.recoverHeap cfg t r) (fun _ m' => m'.toHeap = m.toHeap)
      (fun _ => False) m → m.Harmless t r →
      ((∃ m', (Heap.recoverHeap cfg t r).exec Mem.handle m = .ok ((), m') ∧
        m'.toHeap = m.toHeap) ↔ m.Harmless t r) := by
    intro hp hharm
    obtain ⟨_, m', hx, hsame⟩ := wp_returns hp
    exact ⟨fun _ => hharm, fun _ => ⟨m', hx, hsame⟩⟩
  have hno : wp Mem.handle (Heap.recoverHeap cfg t r) (fun _ m' => m'.toHeap ≠ m.toHeap)
      (fun _ => True) m → ¬ m.Harmless t r →
      ((∃ m', (Heap.recoverHeap cfg t r).exec Mem.handle m = .ok ((), m') ∧
        m'.toHeap = m.toHeap) ↔ m.Harmless t r) := by
    intro hp hharm
    refine ⟨?_, fun h => absurd h hharm⟩
    rintro ⟨m', hx, hsame⟩
    exact absurd hsame (wp_ok hp hx)
  cases r with
  | unsizedToSized index c =>
    obtain ⟨hhead, hc⟩ := hr
    cases index with
    | none =>
      refine hyes ?_ rfl
      simp only [Heap.recoverHeap, wp_bind, Stack.wp_peek, hhead, ne_eq, not_true_eq_false,
        if_false]
      exact Heap.wp_unsizedToSized_nil hhead rfl
    | some i =>
      -- the next slab of the unsized stack is moved as well
      refine hno ?_ (by simp [Mem.Harmless])
      obtain ⟨xs, hxs⟩ := inv.cons_eq hhead
      simp only [Heap.recoverHeap, wp_bind, Stack.wp_peek, hhead, ne_eq, not_true_eq_false,
        if_false]
      refine Heap.wp_unsizedToSized inv hc hxs fun m' inv' _ _ _ => ?_
      intro hsame
      have hmoved := inv'.head_eq (.unsized t)
      rw [hsame, hhead] at hmoved
      have hi : i ∈ a.chain (some (.unsized t)) := by simp [hxs]
      have hne : (some (.unsized t) : Loc T B) ≠ some (.sized t c) := by simp
      exact hne ((inv.mem_move_self hi hne _).mp (List.mem_of_mem_head? hmoved.symm))
  | applicationToSized i b => exact hno (wp_panic.mpr trivial) id
  | unsizedToGlobal i v =>
    by_cases hd : m.Detected t .global v
    · refine hyes ?_ hd
      simp only [Heap.recoverHeap, wp_bind]
      rw [wp_detect, if_pos hd.1]
      simp only [hd, decide_true, if_true]
      exact rfl
    · refine hno ?_ hd
      simp only [Heap.recoverHeap, wp_bind]
      rw [wp_detect]
      split
      · simp only [hd, decide_false, Bool.false_eq_true, if_false]
        refine wp_mono wp_reset (fun _ m' hhead hsame => ?_) fun _ h => h
        rw [hsame] at hhead
        exact hr hhead
      · exact trivial
  | remote i v last =>
    by_cases hd : m.Detected t (.remote i) v
    · cases last with
      | false =>
        refine hyes ?_ ⟨hd, by simp⟩
        simp only [Heap.recoverHeap, wp_bind]
        rw [wp_detect, if_pos hd.1]
        simp only [hd, decide_true, if_true]
        exact rfl
      | true =>
        obtain ⟨hhead, hlen⟩ := hr rfl
        have hseg : Seg m.next (m.head (.unsized t)) (a.chain (some (.unsized t))) none :=
          inv.chains.seg (some (.unsized t))
        have hvalid := Heap.stackIsValid_iff hseg
        by_cases hexact : m.len (.unsized t) = (a.chain (some (.unsized t))).length
        · refine hyes (wp_recover_claimed inv hd hhead hlen ?_)
            ⟨hd, fun _ => hvalid.mpr hexact⟩
          dsimp only
          rw [← hexact, update_eq_self]
        · refine hno (wp_recover_claimed inv hd hhead hlen ?_)
            fun h => hexact (hvalid.mp (h.2 rfl))
          intro n hsame
          have hlen' : update m.len (.unsized t) n (.unsized t) = m.len (.unsized t) :=
            congrFun (congrArg Heap.len hsame) (.unsized t)
          rw [update_self] at hlen'
          exact hexact hlen'.symm
    · refine hno ?_ fun h => hd h.1
      simp only [Heap.recoverHeap, wp_bind]
      rw [wp_detect]
      split
      · simp only [hd, decide_false, Bool.false_eq_true, if_false]
        exact wp_freeRemote_changes
      · exact trivial
  | globalToUnsized | bumpToUnsized | unsizedToGlobalSave | sizedToApplication | detach =>
    exact hr.elim

end Heap

/-! ### The allocator -/

section Allocator

variable {T : Type} [FinEnum T]

/-- Everything persistent but the help array and the records is as it was. -/
def Alloc.SameHeaps (s s' : Alloc T) : Prop :=
  s'.small = s.small ∧ s'.large = s.large ∧ s'.huge.slots = s.huge.slots ∧
    s'.huge.hint = s.huge.hint ∧ s'.huge.list = s.huge.list ∧
    s'.huge.hazards = s.huge.hazards ∧ s'.huge.desc = s.huge.desc

/-- Recovery has nothing to do for the thread, or finds its record harmless. -/
def Alloc.Harmless (s : Alloc T) (t : T) : Prop :=
  match s.log t with
  | none => True
  | some (.small r) => s.smallMem.Harmless t r
  | some (.large r) => s.largeMem.Harmless t r

instance (s : Alloc T) (t : T) : Decidable (s.Harmless t) :=
  match hlog : s.log t with
  | none => .isTrue (by simp [Alloc.Harmless, hlog])
  | some (.small r) =>
    decidable_of_iff (s.smallMem.Harmless t r) (by simp [Alloc.Harmless, hlog])
  | some (.large r) =>
    decidable_of_iff (s.largeMem.Harmless t r) (by simp [Alloc.Harmless, hlog])

/-- What holds of the state a program leads to is what holds of the memory it leaves. -/
theorem exists_ok_iff {M α : Type} {r : Except Panic (Unit × M)} {g : Except Panic α} (f : M → α)
    {P : α → Prop} {Q : M → Prop} (hg : g = r.map fun x => f x.2) (h : ∀ m, P (f m) ↔ Q m) :
    (∃ a, g = .ok a ∧ P a) ↔ ∃ m, r = .ok ((), m) ∧ Q m := by
  subst hg
  cases r with
  | error e => simp [Except.map]
  | ok x => simp [Except.map, h, Prod.ext_iff]

section

variable {cfg : Config} {s : Alloc T} {t : T} {dram : T → Dram}

/-- Recovery on the small heap, in terms of the program it runs. -/
theorem Alloc.recover_small {r : HeapState Small} (hlog : s.log t = some (.small r)) :
    (∃ s', Alloc.recover cfg t { s with huge := { s.huge with dram := dram } } = .ok s' ∧
      s.SameHeaps s') ↔
    ∃ m', (Heap.recoverHeap cfg t r).exec Mem.handle s.smallMem = .ok ((), m') ∧
      m'.toHeap = s.smallMem.toHeap := by
  refine exists_ok_iff { s with huge := { s.huge with dram := dram } }.withSmall ?_ fun m =>
    ⟨fun h => h.1, fun h => ⟨h, rfl, rfl, rfl, rfl, rfl, rfl⟩⟩
  have hmem : ({ s with huge := { s.huge with dram := dram } } : Alloc T).smallMem = s.smallMem := rfl
  unfold Alloc.recover
  simp only [hlog, Alloc.onSmall, hmem]
  cases (Heap.recoverHeap cfg t r).exec Mem.handle s.smallMem <;> rfl

/-- Recovery on the large heap, in terms of the program it runs. -/
theorem Alloc.recover_large {r : HeapState Large} (hlog : s.log t = some (.large r)) :
    (∃ s', Alloc.recover cfg t { s with huge := { s.huge with dram := dram } } = .ok s' ∧
      s.SameHeaps s') ↔
    ∃ m', (Heap.recoverHeap cfg t r).exec Mem.handle s.largeMem = .ok ((), m') ∧
      m'.toHeap = s.largeMem.toHeap := by
  refine exists_ok_iff { s with huge := { s.huge with dram := dram } }.withLarge ?_ fun m =>
    ⟨fun h => h.2.1, fun h => ⟨rfl, h, rfl, rfl, rfl, rfl, rfl⟩⟩
  have hmem : ({ s with huge := { s.huge with dram := dram } } : Alloc T).largeMem = s.largeMem := rfl
  unfold Alloc.recover
  simp only [hlog, Alloc.onLarge, hmem]
  cases (Heap.recoverHeap cfg t r).exec Mem.handle s.largeMem <;> rfl

end

/-- **Recovery of a quiescent thread is the identity exactly when its record is harmless.** -/
theorem focus_identity_iff (g : Regions) (cfg : Config) (blank : Descriptor)
    (hbump : cfg.batchBump % 2 ^ 32 ≠ 0) (hpos : 1 ≤ cfg.batchGlobal)
    (hle : cfg.batchGlobal ≤ cfg.cacheLocal + 1) (s : AllocSession T)
    (hrun : ReflTransGen (AllocSession.Step g cfg) (AllocSession.zeroed blank) s) (t : T) :
    (∃ s', s.alloc.focus cfg t = .ok s' ∧ s.alloc.SameHeaps s') ↔ s.alloc.Harmless t := by
  obtain ⟨as, al, inv⟩ := AllocInv.run hbump hpos hle hrun
  obtain ⟨d, hd, -⟩ := inv.huge.focus_eq t
  have hrec := inv.records t
  unfold Alloc.focus Alloc.Harmless
  unfold Alloc.RecordOk at hrec
  rw [hd, ok_bind]
  cases hlog : s.alloc.log t with
  | none =>
    have hrecover : Alloc.recover cfg t
        { s.alloc with huge := { s.alloc.huge with dram := update s.alloc.huge.dram t d } } =
        .ok { s.alloc with huge := { s.alloc.huge with dram := update s.alloc.huge.dram t d } } := by
      simp only [Alloc.recover, hlog]
    exact ⟨fun _ => trivial, fun _ => ⟨_, hrecover, rfl, rfl, rfl, rfl, rfl, rfl, rfl⟩⟩
  | some r =>
    rw [hlog] at hrec
    cases r with
    | small r =>
      exact (Alloc.recover_small hlog).trans
        (recoverHeap_iff (m := s.alloc.smallMem) inv.small.inv hrec)
    | large r =>
      exact (Alloc.recover_large hlog).trans
        (recoverHeap_iff (m := s.alloc.largeMem) inv.large.inv hrec)

/-- The record of a large allocation is there, and harmless. -/
theorem focus_identity_iff_large : ∃ s : AllocSession (Fin 2), (s.alloc.log 0).isSome ∧
    ∃ s', s.alloc.focus (.initial true) 0 = .ok s' ∧ s.alloc.SameHeaps s' := by
  obtain ⟨s, hs, hlog, hharm⟩ : ∃ s : AllocSession (Fin 2),
      AllocSession.script AllocSession.exampleRegions (.initial true)
        [.allocate 0 262144, .allocate 1 1000] (AllocSession.zeroed ⟨0, 0, 0, .safe⟩) = some s ∧
      ((s.alloc.log 0).isSome ∧ s.alloc.Harmless 0) :=
    Session.exists_of_any (by decide +kernel)
  exact ⟨s, hlog, (focus_identity_iff AllocSession.exampleRegions (.initial true) _ (by decide)
    (by decide) (by decide) s (AllocSession.run_of_script hs) 0).mpr hharm⟩

/-- A local free of a large block leaves a record that recovery has no code for. -/
theorem focus_panics_after_large_free : ∃ s : AllocSession (Fin 2),
    ReflTransGen (AllocSession.Step AllocSession.exampleRegions (.initial false))
      (AllocSession.zeroed ⟨0, 0, 0, .safe⟩) s ∧
    s.alloc.focus (.initial false) 0 = .error .todo := by
  obtain ⟨s, hs, hpanic⟩ : ∃ s : AllocSession (Fin 2),
      AllocSession.script AllocSession.exampleRegions (.initial false)
        [.allocate 0 262144, .allocate 0 262144, .free 0 1099511660545]
        (AllocSession.zeroed ⟨0, 0, 0, .safe⟩) = some s ∧
      (match s.alloc.focus (.initial false) 0 with
        | .ok _ => false
        | .error e => decide (e = .todo)) = true :=
    Session.exists_of_any (by decide +kernel)
  refine ⟨s, AllocSession.run_of_script hs, ?_⟩
  cases hfocus : s.alloc.focus (.initial false) 0 with
  | ok s' =>
    rw [hfocus] at hpanic
    cases hpanic
  | error e =>
    rw [hfocus] at hpanic
    rw [of_decide_eq_true hpanic]

end Allocator

end Cxlalloc
