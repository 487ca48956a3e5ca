/-
The statistics add up to where the slabs are.

Two layers lie between the printed lines and the heap.  What a recorder has printed and
what it still keeps together are the sum of everything it was given (`total_record`), and
what a call gives it accounts for the slabs the call has moved (`Accounts`).  So the totals
follow the slabs through every run in which no event is recorded for a move that does not
take place.  There is one such event: `claim` always takes a slab from the disowned ones,
but the last remote free may find a slab that still has its owner.
-/
import Cxlalloc.Proofs.Session

namespace Cxlalloc

open Lib
open Lib.Prog
open Cxlalloc.Bracket
open Function
open Relation

variable {T B R : Type} [Bracket B] [DecidableEq T] [DecidableEq B]

/-! ### Totals -/

section

variable {cfg : Config} {g : Gauge B}

/-- What is printed and what is kept are what was there and what was added. -/
theorem Sloppy.apply_total (s : Sloppy) (threshold delta : ℤ) :
    (s.apply threshold delta).1.getD 0 + (s.apply threshold delta).2.residue = s.residue + delta := by
  rw [Sloppy.apply]
  split
  · exact zero_add _
  · exact add_zero _

omit [Bracket B] in
theorem Gauge.sum_append {l l' : List (Gauge B × ℤ)} : g.sum (l ++ l') = g.sum l + g.sum l' := by
  rw [Gauge.sum, List.map_append, List.sum_append]
  rfl

omit [Bracket B] in
theorem Gauge.sum_line {g' : Gauge B} {value : Option ℤ} :
    g.sum (value.toList.map (Prod.mk g')) = if g' = g then value.getD 0 else 0 := by
  cases value <;> simp [Gauge.sum]

omit [Bracket B] in
theorem MemoryRecorder.applyAll_total (r : MemoryRecorder B) (threshold : ℤ)
    (us : List (Gauge B × ℤ)) :
    g.sum (applyAll threshold us r).1 + ((applyAll threshold us r).2 g).residue =
      (r g).residue + g.sum us := by
  induction us generalizing r with
  | nil => simp [applyAll, Gauge.sum]
  | cons u us ih =>
    obtain ⟨g', delta⟩ := u
    have happly := (r g').apply_total threshold delta
    have hrest := ih (update r g' ((r g').apply threshold delta).2)
    have hcons : g.sum ((g', delta) :: us) = (if g' = g then delta else 0) + g.sum us := by
      simp [Gauge.sum]
    simp only [applyAll, Gauge.sum_append, Gauge.sum_line, hcons]
    by_cases hg : g' = g
    · subst hg
      rw [update_self] at hrest
      rw [if_pos rfl, if_pos rfl]
      omega
    · rw [update_of_ne (Ne.symm hg)] at hrest
      rw [if_neg hg, if_neg hg]
      omega

/-- An event adds to the totals what it is worth. -/
theorem Stat.total_record [Fintype T] {st st' : Stat T B} {t : T} {e : Event B}
    (hst : st.record cfg t e = some st') : st'.total g = st.total g + e.delta cfg g := by
  obtain ⟨⟨printed, r⟩, hr, rfl⟩ := Option.map_eq_some_iff.mp hst
  obtain ⟨us, hus, hr⟩ := Option.map_eq_some_iff.mp hr
  have htotal := (st.memory t).applyAll_total (g := g) (2 ^ 12) us
  rw [hr] at htotal
  have hsum : ∑ u, (update st.memory t r u g).residue =
      ∑ u, (st.memory u g).residue - (st.memory t g).residue + (r g).residue := by
    rw [← Finset.add_sum_erase _ _ (Finset.mem_univ t),
      ← Finset.add_sum_erase _ (fun u => (st.memory u g).residue) (Finset.mem_univ t), update_self]
    have hothers : ∑ u ∈ Finset.univ.erase t, (update st.memory t r u g).residue =
        ∑ u ∈ Finset.univ.erase t, (st.memory u g).residue :=
      Finset.sum_congr rfl fun u hu => by rw [update_of_ne (Finset.ne_of_mem_erase hu)]
    rw [hothers]
    ring
  rw [Stat.total, Stat.total, Event.delta, hus, Option.getD_some]
  change g.sum (st.printed ++ printed) + ∑ u, (update st.memory t r u g).residue = _
  rw [Gauge.sum_append, hsum]
  dsimp only at htotal
  omega

end

/-! ### A run with statistics -/

section

variable {cfg : Config} {α : Type} {p : Code T B R α} {m m' : Mem T B R} {st st' : Stat T B} {a : α}

omit [DecidableEq B] in
theorem Stat.handle_ok [DecidableEq B] [Fintype T] {act : Act T B R α}
    (hx : Stat.handle cfg α act (m, st) = .ok (a, (m', st'))) :
    Mem.handle α act m = .ok (a, m') ∧
      ∀ g, st'.total g = st.total g + ((Act.events α act).map fun e => e.2.delta cfg g).sum := by
  rw [Stat.handle] at hx
  cases hm : Mem.handle α act m with
  | error e =>
    rw [hm] at hx
    cases hx
  | ok r =>
    obtain ⟨b, m₁⟩ := r
    rw [hm] at hx
    by_cases hact : Act.events α act = []
    · have hsame : (b, (m₁, st)) = (a, (m', st')) := by
        cases act <;> first | exact Except.ok.inj hx | cases hact
      obtain ⟨rfl, hm⟩ := Prod.mk.inj hsame
      obtain ⟨rfl, rfl⟩ := Prod.mk.inj hm
      exact ⟨rfl, fun g => by simp [hact]⟩
    · cases act with
      | record t e =>
        dsimp only at hx
        cases hst : st.record cfg t e with
        | none =>
          rw [hst] at hx
          cases hx
        | some st₁ =>
          rw [hst] at hx
          obtain ⟨rfl, hm⟩ := ok_inj hx
          obtain ⟨rfl, rfl⟩ := Prod.mk.inj hm
          refine ⟨rfl, fun g => ?_⟩
          simp [Act.events, Stat.total_record hst]
      | _ => exact absurd rfl hact

/-- A run with statistics is a run, and the totals grow by what it shows. -/
theorem Stat.exec_handle [Fintype T] (hx : p.exec (Stat.handle cfg) (m, st) = .ok (a, (m', st'))) :
    ∃ evs, observe Mem.handle Act.events p m = .ok (a, m', evs) ∧
      ∀ g, st'.total g = st.total g + (evs.map fun e => e.2.delta cfg g).sum := by
  induction p generalizing m st with
  | ret b =>
    obtain ⟨rfl, hm⟩ := ok_inj hx
    obtain ⟨rfl, rfl⟩ := Prod.mk.inj hm
    exact ⟨[], rfl, fun g => by simp⟩
  | step act k ih =>
    rw [exec] at hx
    cases hs : Stat.handle cfg _ act (m, st) with
    | error e =>
      rw [hs] at hx
      cases hx
    | ok r =>
      obtain ⟨b, m₁, st₁⟩ := r
      rw [hs] at hx
      obtain ⟨hm, htotal⟩ := Stat.handle_ok hs
      obtain ⟨evs, hobs, hevs⟩ := ih b hx
      refine ⟨Act.events _ act ++ evs, ?_, fun g => ?_⟩
      · rw [observe, hm]
        dsimp only
        rw [hobs]
      · rw [hevs, htotal, List.map_append, List.sum_append, add_assoc]

end

/-! ### Sessions with statistics -/

/-- A free, if the call is one, claims no slab that another thread still owns. -/
def Session.ClaimsDisowned (s : Session T B) : Call T B → Prop
  | .allocate _ _ => True
  | .free t offset => ∀ i ∈ offset.intoIndex, s.heap.ClaimsDisowned t i

instance (s : Session T B) (c : Call T B) : Decidable (s.ClaimsDisowned c) :=
  match c with
  | .allocate _ _ => inferInstanceAs (Decidable True)
  | .free t offset => inferInstanceAs (Decidable (∀ i ∈ offset.intoIndex, s.heap.ClaimsDisowned t i))

namespace Heap

variable [FromState B R] [LawfulBracket B] {cfg : Config} {a : Ledger T B} {t : T} {c : B}
  {m m' : Mem T B R} {O : Set (Offset B)} {evs : List (T × Event B)}

/-- An allocation records what it moves. -/
theorem accounts_allocateBlock {r : Option (Offset B)}
    (hobs : observe Mem.handle Act.events (allocateBlock cfg t c) m = .ok (r, m', evs))
    (tr : Tracks cfg m.toHeap O a) (hbump : cfg.batchBump % 2 ^ 32 ≠ 0)
    (hsmall : cfg.batchBump < 2 ^ 32) : Accounts cfg evs m.toHeap m'.toHeap := by
  cases hc : isZero c with
  | true =>
    have hzero := emits_allocateBlock_zero (t := t) (m := m) (E := fun _ => False)
      (Q := fun _ m' evs => Accounts cfg evs m.toHeap m'.toHeap) tr.inv hc (.nil fun _ => rfl)
    exact wpo_ok hzero hobs
  | false =>
    have hemits := emits_allocateBlock (t := t) (m := m)
      (Q := fun _ m' evs => Accounts cfg evs m.toHeap m'.toHeap) tr hc hbump
      fun _ _ _ _ _ hacc => hacc hsmall
    exact wpo_ok hemits hobs

/-- A free records what it moves, unless it claims a slab of another thread. -/
theorem accounts_free {o : Offset B}
    (hobs : observe Mem.handle Act.events (free cfg t o) m = .ok ((), m', evs))
    (tr : Tracks cfg m.toHeap O a) (ho : o ∈ O)
    (hpos : 1 ≤ cfg.batchGlobal) (hle : cfg.batchGlobal ≤ cfg.cacheLocal + 1)
    (hex : a.excess (.unsized t) = 0) (hclaims : ∀ i ∈ o.intoIndex, m.toHeap.ClaimsDisowned t i) :
    Accounts cfg evs m.toHeap m'.toHeap := by
  have hemits := emits_free_live (t := t) (m := m)
    (Q := fun _ m' evs => Accounts cfg evs m.toHeap m'.toHeap) tr ho hpos hle
    fun _ _ _ _ hacc => hacc hex hclaims
  exact wpo_ok hemits hobs

end Heap

namespace StatSession

variable [FromState B R] [LawfulBracket B] [Fintype T] {cfg : Config} {a : Ledger T B}
  {s s' : StatSession T B} {help : T → T → Version} {log : T → Option R} {cl : Call T B}

/-- What the statistics say of every place a slab can be in. -/
def Agrees (s : StatSession T B) : Prop :=
  ∀ p : Place B, s.stat.total p.gauge = sizeSlab B * (s.heap.slabsAt p).ncard

omit [FromState B R] [LawfulBracket B] [DecidableEq T] in
/-- Totals that grow by what accounts for a change of the heap agree with it still. -/
theorem Agrees.of_accounts {evs : List (T × Event B)} (hs : s.Agrees)
    (hacc : Accounts cfg evs s.heap s'.heap)
    (htotal : ∀ g, s'.stat.total g = s.stat.total g + (evs.map fun e => e.2.delta cfg g).sum) :
    s'.Agrees := by
  intro p
  rw [htotal, hs p, hacc p]

/-- A completed call is one of the heap, and the totals still agree. -/
theorem call_spec (tr : Tracks cfg s.heap s.live a) (hex : ∀ t, a.excess (.unsized t) = 0)
    (hbump : cfg.batchBump % 2 ^ 32 ≠ 0) (hsmall : cfg.batchBump < 2 ^ 32)
    (hpos : 1 ≤ cfg.batchGlobal) (hle : cfg.batchGlobal ≤ cfg.cacheLocal + 1)
    (hlegal : s.Legal cl) (hclaims : s.ClaimsDisowned cl) (hs : s.Agrees)
    (hx : s.call cfg help log cl = .ok s') :
    s.toSession.call cfg help log cl = .ok s'.toSession ∧ s'.Agrees := by
  cases cl with
  | allocate t c =>
    simp only [call] at hx
    cases hrun : (Heap.allocateBlock cfg t c : Code T B R _).exec (Stat.handle cfg)
        ({ s.heap with help := help, log := log }, s.stat) with
    | error e =>
      rw [hrun] at hx
      cases hx
    | ok r =>
      obtain ⟨r, m', st'⟩ := r
      obtain ⟨evs, hobs, htotal⟩ := Stat.exec_handle hrun
      rw [hrun] at hx
      have hacc := Heap.accounts_allocateBlock hobs tr hbump hsmall
      have hexec := exec_of_observe hobs
      simp only [Session.call, hexec]
      cases r with
      | some o =>
        cases hx
        exact ⟨rfl, hs.of_accounts hacc htotal⟩
      | none =>
        cases hx
        exact ⟨rfl, hs.of_accounts hacc htotal⟩
  | free t o =>
    simp only [call] at hx
    cases hrun : (Heap.free cfg t o : Code T B R _).exec (Stat.handle cfg)
        ({ s.heap with help := help, log := log }, s.stat) with
    | error e =>
      rw [hrun] at hx
      cases hx
    | ok r =>
      obtain ⟨⟨⟩, m', st'⟩ := r
      obtain ⟨evs, hobs, htotal⟩ := Stat.exec_handle hrun
      rw [hrun] at hx
      have hacc := Heap.accounts_free hobs tr hlegal hpos hle (hex t) hclaims
      have hexec := exec_of_observe hobs
      simp only [Session.call, hexec]
      cases hx
      exact ⟨rfl, hs.of_accounts hacc htotal⟩

omit [LawfulBracket B] [DecidableEq T] in
theorem agrees_zeroed : (zeroed : StatSession T B).Agrees := by
  intro p
  have hempty : (Heap.zeroed : Heap T B).slabsAt p = ∅ := by
    refine Set.eq_empty_of_forall_notMem fun i hi => ?_
    have inv : Inv (Config.initial true) (Heap.zeroed : Heap T B) Ledger.zeroed := .zeroed
    have hlt := inv.slabsAt_below hi
    have hpos := i.pos
    simp only [Heap.bumpIndex, Heap.zeroed, Word.zeroed, Option.getD_none, Index.min] at hlt
    omega
  show (Stat.zeroed : Stat T B).total p.gauge = sizeSlab B * ((Heap.zeroed : Heap T B).slabsAt p).ncard
  rw [hempty]
  simp [Stat.total, Stat.zeroed, Gauge.sum, MemoryRecorder.zeroed]

/-- In every run in which no free claims a slab that another thread still owns, the totals
are the places of the slabs. -/
theorem totals_agree (hbump : 1 ≤ cfg.batchBump) (hsmall : cfg.batchBump < 2 ^ 32)
    (hpos : 1 ≤ cfg.batchGlobal) (hle : cfg.batchGlobal ≤ cfg.cacheLocal + 1)
    (hrun : ReflTransGen (StepWhere R Session.ClaimsDisowned cfg) zeroed s) : s.Agrees := by
  have hbatch : cfg.batchBump % 2 ^ 32 ≠ 0 := by
    rw [Nat.mod_eq_of_lt hsmall]
    omega
  -- the run is one of the heap as well, which is where the ledger of each state comes from
  have hboth : ReflTransGen (Session.Step R cfg) Session.zeroed s.toSession ∧ s.Agrees := by
    induction hrun with
    | refl => exact ⟨.refl, agrees_zeroed⟩
    | tail _ hstep ih =>
      obtain ⟨hheap, hs⟩ := ih
      obtain ⟨cl, help, log, hlegal, hclaims, hcall⟩ := hstep
      obtain ⟨a, tr, hex⟩ := Session.unsized_run hbatch hpos hle hsmall hheap
      obtain ⟨hsession, hs'⟩ :=
        call_spec tr hex hbatch hsmall hpos hle hlegal hclaims hs hcall
      exact ⟨hheap.tail ⟨cl, help, log, hlegal, trivial, hsession⟩, hs'⟩
  exact hboth.2

omit [LawfulBracket B] [Fintype T] in
theorem run_of_script {P : Session T B → Call T B → Prop} [∀ s c, Decidable (P s c)]
    {cs : List (Call T B)} (hs : script R P cfg cs s = some s') :
    ReflTransGen (StepWhere R P cfg) s s' := by
  refine Lib.run_of_foldlM (fun s c s' h => ?_) hs
  obtain ⟨⟨hlegal, hP⟩, hcall⟩ := Lib.of_attempt h
  exact ⟨c, _, _, hlegal, hP, hcall⟩

/-- One slab on its whole way: thread 0 fills it, disowns it because a block has been freed
meanwhile, and thread 1 claims it with the last one and passes it to the global list. -/
theorem totals_agree_claim : ∃ s : StatSession (Fin 2) Large,
    ReflTransGen (StepWhere (HeapState Large) Session.ClaimsDisowned (Config.initial true))
      zeroed s ∧ s.stat.total .globalUnsized = sizeSlab Large ∧ s.Agrees := by
  obtain ⟨s, hs, htotal⟩ := Session.exists_of_any
    (o := script (HeapState Large) Session.ClaimsDisowned (Config.initial true)
      [.allocate 0 ⟨8⟩, .free 1 ⟨2 ^ 19, by decide⟩, .allocate 0 ⟨8⟩,
        .free 1 ⟨2 ^ 19 + 2 ^ 18, by decide⟩] (zeroed : StatSession (Fin 2) Large))
    (p := fun s => s.stat.total .globalUnsized = sizeSlab Large) (by decide +kernel)
  have hrun := run_of_script hs
  exact ⟨s, hrun, htotal, totals_agree (by decide) (by decide) (by decide) (by decide) hrun⟩

/-- A slab of one block is detached as soon as it is used, and keeps its owner.  When another
thread frees the block it claims the slab, and the disowned slabs are one fewer than none. -/
theorem totals_disagree : ∃ s : StatSession (Fin 2) Large,
    ReflTransGen (StepWhere (HeapState Large) (fun _ _ => True) (Config.initial true)) zeroed s ∧
      s.stat.total (Place.disowned ⟨9⟩).gauge = -sizeSlab Large ∧ ¬ s.Agrees := by
  obtain ⟨s, hs, htotal⟩ := Session.exists_of_any
    (o := script (HeapState Large) (fun _ _ => True) (Config.initial true)
      [.allocate 0 ⟨9⟩, .free 1 ⟨2 ^ 19, by decide⟩] (zeroed : StatSession (Fin 2) Large))
    (p := fun s => s.stat.total (Place.disowned ⟨9⟩).gauge = -sizeSlab Large) (by decide +kernel)
  refine ⟨s, run_of_script hs, htotal, fun hagrees => ?_⟩
  have hslab : (0 : ℤ) < sizeSlab Large := by decide
  have hcount := hagrees (.disowned ⟨9⟩)
  rw [htotal] at hcount
  have : (0 : ℤ) ≤ sizeSlab Large * (s.heap.slabsAt (.disowned ⟨9⟩)).ncard :=
    mul_nonneg hslab.le (Int.natCast_nonneg _)
  omega

end StatSession

end Cxlalloc
