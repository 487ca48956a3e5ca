/-
Runs of completed calls on one heap.

`Tracks` ties the ledger of a heap to the blocks its callers hold.  Every completed
call keeps it, so it holds in every state of a run; what the runs guarantee (each slab
in exactly one place, every recorded length right) is read off it at the end.
-/
import Cxlalloc.Proofs.Heap
import Mathlib.Logic.Relation

namespace Cxlalloc

open Lib
open Lib.Prog
open Cxlalloc.Bracket
open Relation
open Function

variable {T B R : Type} [Bracket B]

/-- The ledger of a heap that was never used. -/
def Ledger.zeroed : Ledger T B :=
  { chain := fun _ => [], live := fun _ => ∅, excess := fun _ => 0 }

/-- The heap represents the ledger, and the live blocks are the ones it lists. -/
structure Tracks (cfg : Config) (h : Heap T B) (live : Set (Offset B)) (a : Ledger T B) : Prop where
  inv : Inv cfg h a
  mem : ∀ o, o ∈ live ↔
    ∃ (i : Index B) (b : Bit), b.toNat ∈ a.live i ∧ o = Offset.fromBlock (h.sizeClass i) i b

variable {cfg : Config} {h : Heap T B} {a : Ledger T B} {O : Set (Offset B)}

theorem Inv.zeroed : Inv cfg (Heap.zeroed : Heap T B) Ledger.zeroed where
  chains := ⟨fun l => by cases l <;> rfl, by simp [Ledger.zeroed]⟩
  slab i := by
    refine ⟨by simp [Ledger.zeroed], by simp [Ledger.zeroed], by simp [Ledger.zeroed], ?_,
      by simp [Ledger.zeroed], fun _ => ⟨rfl, rfl⟩, .inl rfl⟩
    intro hlt
    have hpos := i.pos
    simp only [Heap.bumpIndex, Heap.zeroed, Word.zeroed, Option.getD_none, Index.min] at hlt
    omega
  lens s := rfl
  bound := by simp [Heap.bumpIndex, Heap.zeroed, Word.zeroed, Index.min]

theorem Tracks.zeroed : Tracks cfg (Heap.zeroed : Heap T B) ∅ Ledger.zeroed :=
  ⟨Inv.zeroed, fun o => by simp [Ledger.zeroed]⟩

variable {o : Offset B}

namespace Tracks

variable [LawfulBracket B] {i j : Index B} {b b' : Bit}

/-- Two blocks at the same offset are the same block. -/
theorem block_inj (inv : Inv cfg h a) {c : B} (hc : isZero c = false) (hb : b.toNat < count c)
    (hi : i.value < 2 ^ 32) (hclass : h.sizeClass i = c) (hb' : b'.toNat ∈ a.live j)
    (he : Offset.fromBlock c i b = Offset.fromBlock (h.sizeClass j) j b') : i = j ∧ b = b' := by
  obtain ⟨hbusy, hlt, -⟩ := inv.busy_of_live hb'
  have hbound := inv.bound
  have hb'' := hbusy.live_lt _ hb'
  have hidx := Offset.intoIndex_fromBlock hi hc hb
  rw [he, Offset.intoIndex_fromBlock (by omega) hbusy.isZero hb''] at hidx
  obtain rfl := Option.some.inj hidx
  subst hclass
  have hblk := Offset.intoBlock_fromBlock (i := j) hc hb
  rw [he, Offset.intoBlock_fromBlock hbusy.isZero hb''] at hblk
  exact ⟨rfl, (Option.some.inj hblk).symm⟩

/-- What a live offset stands for. -/
theorem exists_block (tr : Tracks cfg h O a) (ho : o ∈ O) :
    ∃ (i : Index B) (b : Bit), b.toNat ∈ a.live i ∧ o = Offset.fromBlock (h.sizeClass i) i b ∧
      o.intoIndex = some i := by
  obtain ⟨i, b, hb, rfl⟩ := (tr.mem o).mp ho
  obtain ⟨hbusy, hlt, -⟩ := tr.inv.busy_of_live hb
  have hbound := tr.inv.bound
  exact ⟨i, b, hb, rfl, Offset.intoIndex_fromBlock (by omega) hbusy.isZero (hbusy.live_lt _ hb)⟩

end Tracks

variable [DecidableEq T] [DecidableEq B] [FromState B R] [LawfulBracket B]
  {t : T} {c : B} {m : Mem T B R}

/-! ### One call -/

namespace Heap

/-- What an allocation of class `c` that returned `o` leaves behind. -/
structure Allocated (cfg : Config) (t : T) (c : B) (m : Mem T B R) (O : Set (Offset B))
    (a : Ledger T B) (o : Offset B) (m' : Mem T B R) (a' : Ledger T B) : Prop where
  tracks : Tracks cfg m'.toHeap (insert o O) a'
  fresh : o ∉ O
  block : ∃ (i : Index B) (b : Bit), o = Offset.fromBlock c i b ∧ b.toNat < count c ∧
    m'.sizeClass i = c ∧ i.value < m'.bumpIndex ∧ b.toNat ∈ a'.live i
  keeps : cfg.batchBump < 2 ^ 32 → ∀ s, a.Keeps a' s
  sizeClass : ∀ j, (a.live j).Nonempty → m'.sizeClass j = m.sizeClass j
  logged : Logged cfg t m m'

omit [DecidableEq T] [DecidableEq B] in
/-- `peek` and `pop` together are an allocation. -/
theorem allocated {i : Index B} {m₁ m₂ : Mem T B R} {a₁ a₂ : Ledger T B}
    (tr : Tracks cfg m.toHeap O a) (hc : isZero c = false) (ready : Ready cfg t c m a i m₁ a₁)
    (popped : Popped cfg t m₁ a₁ i (m₁.bits i).peekUnchecked.toNat m₂ a₂) :
    Allocated cfg t c m O a (Offset.fromBlock c i (m₁.bits i).peekUnchecked) m₂ a₂ := by
  obtain ⟨xs, hl⟩ := ready.inv.cons_eq ready.top
  have hi : i ∈ a₁.chain (some (.sized t c)) := by simp [hl]
  obtain ⟨hbusy, -, hclass, hne⟩ := (ready.inv.slab i).sized t c hi
  obtain ⟨-, hmem, -⟩ := BitSet.peek_spec hbusy.validate hne
  generalize (m₁.bits i).peekUnchecked = b at hmem popped ⊢
  have hb : b.toNat < count c := hclass ▸ hbusy.elems_lt _ hmem
  have hclass' : m₂.sizeClass i = c := by rw [popped.sizeClass, hclass]
  have hlive : a₂.live = (a.allot i b.toNat).live := by
    rw [popped.live, Ledger.allot, Ledger.allot, ready.live]
  have hkept : ∀ j, (a.live j).Nonempty → m₂.sizeClass j = m.sizeClass j := fun j hj => by
    rw [popped.sizeClass, ready.sizeClass j hj]
  have hin : b.toNat ∈ a₂.live i := by rw [hlive]; simp
  have hbound := popped.inv.bound
  obtain ⟨-, hlt, -⟩ := popped.inv.busy_of_live hin
  have hmemO : ∀ o, o ∈ insert (Offset.fromBlock c i b) O ↔ ∃ (j : Index B) (b' : Bit),
      b'.toNat ∈ a₂.live j ∧ o = Offset.fromBlock (m₂.sizeClass j) j b' := by
    intro o
    constructor
    · rintro (rfl | ho)
      · exact ⟨i, b, hin, by rw [hclass']⟩
      · obtain ⟨j, b', hb', rfl⟩ := (tr.mem o).mp ho
        refine ⟨j, b', ?_, by rw [hkept j ⟨_, hb'⟩]⟩
        rw [hlive]
        by_cases hj : j = i
        · subst hj; simp [hb']
        · rwa [Ledger.allot_live_of_ne hj]
    · rintro ⟨j, b', hb', rfl⟩
      rw [hlive] at hb'
      by_cases hj : j = i
      · subst hj
        rw [Ledger.allot_live_self, Finset.mem_insert] at hb'
        rcases hb' with hb' | hb'
        · obtain rfl := Bit.toNat_inj hb'
          exact .inl (by rw [hclass'])
        · exact .inr ((tr.mem _).mpr ⟨j, b', hb', by rw [hkept j ⟨_, hb'⟩]⟩)
      · rw [Ledger.allot_live_of_ne hj] at hb'
        exact .inr ((tr.mem _).mpr ⟨j, b', hb', by rw [hkept j ⟨_, hb'⟩]⟩)
  have hfresh : Offset.fromBlock c i b ∉ O := by
    intro ho
    obtain ⟨j, b', hb', he⟩ := (tr.mem _).mp ho
    have hb'' : b'.toNat ∈ a₁.live j := by rw [ready.live]; exact hb'
    rw [← ready.sizeClass j ⟨_, hb'⟩] at he
    have hlt₁ := ready.inv.below hi
    have hbound₁ := ready.inv.bound
    obtain ⟨rfl, rfl⟩ := Tracks.block_inj ready.inv hc hb (by omega) hclass hb'' he
    exact popped.fresh hb''
  refine ⟨⟨popped.inv, hmemO⟩, hfresh, ⟨i, b, rfl, hb, hclass', hlt, hin⟩, ?_, hkept, ?_⟩
  · intro hsmall s h
    rw [popped.excess]
    exact ready.keeps hsmall s h
  · rcases ready.logged with ⟨hlog, hhead, hlen⟩ | ⟨r, hlog, hr⟩
    · exact .inl ⟨by rw [popped.log, hlog], by rw [popped.head, hhead], by rw [popped.len, hlen]⟩
    · exact .inr ⟨r, by rw [popped.log, hlog], hr.congr popped.head popped.len⟩

variable {Q : Option (Offset B) → Mem T B R → List (T × Event B) → Prop}

theorem emits_allocateBlock (tr : Tracks cfg m.toHeap O a) (hc : isZero c = false)
    (hbatch : cfg.batchBump % 2 ^ 32 ≠ 0) (hQ : ∀ o m' a' evs, Allocated cfg t c m O a o m' a' →
      (cfg.batchBump < 2 ^ 32 → Accounts cfg evs m.toHeap m'.toHeap) → Q (some o) m' evs) :
    wpo Mem.handle Act.events (allocateBlock cfg t c) Q
      (Fails (UsedUp cfg m.toHeap) (¬ (cfg.batchBump < 2 ^ 32 ∧ a.Exact))) m := by
  rw [allocateBlock, wpo_bind]
  refine emits_peek tr.inv hc hbatch fun i m₁ a₁ evs ready hacc => ?_
  refine (wpo_bind _ _).mpr (emits_pop ready.inv ready.top fun m₂ a₂ evs' popped hacc' => ?_)
  refine hQ _ m₂ a₂ _ (allocated tr hc ready popped) fun hsmall => ?_
  rw [List.append_nil]
  exact (hacc hsmall).trans hacc'

theorem wp_allocateBlock (tr : Tracks cfg m.toHeap O a) (hc : isZero c = false)
    (hbatch : cfg.batchBump % 2 ^ 32 ≠ 0) : wp Mem.handle (allocateBlock cfg t c)
      (fun r m' => ∃ o a', r = some o ∧ Allocated cfg t c m O a o m' a')
      (Fails (UsedUp cfg m.toHeap) (¬ (cfg.batchBump < 2 ^ 32 ∧ a.Exact))) m :=
  wpo_iff_wp.mp (emits_allocateBlock tr hc hbatch fun o _ a' _ hal _ => ⟨o, a', rfl, hal⟩)

omit [LawfulBracket B] in
/-- A request for no bytes gets none. -/
theorem emits_allocateBlock_zero
    {E : Panic → Prop} (inv : Inv cfg m.toHeap a) (hc : isZero c = true) (hQ : Q none m []) :
    wpo Mem.handle Act.events (allocateBlock cfg t c) Q E m := by
  rw [allocateBlock, wpo_bind]
  exact emits_peek_zero inv hc hQ

omit [LawfulBracket B] in
theorem wp_allocateBlock_zero (inv : Inv cfg m.toHeap a) (hc : isZero c = true) :
    wp Mem.handle (allocateBlock cfg t c) (fun r m' => r = none ∧ m' = m) (fun _ => False) m :=
  wpo_iff_wp.mp (emits_allocateBlock_zero inv hc ⟨rfl, rfl⟩)

/-- What a free of a live block leaves behind. -/
structure Released (cfg : Config) (t : T) (m : Mem T B R) (O : Set (Offset B)) (a : Ledger T B)
    (o : Offset B) (m' : Mem T B R) (a' : Ledger T B) : Prop where
  tracks : Tracks cfg m'.toHeap (O \ {o}) a'
  keeps : ∀ s, ((∀ i ∈ o.intoIndex, m.toHeap.Tidy t i) ∨ ∃ u, s = .unsized u) → a.Keeps a' s
  sizeClass : m'.sizeClass = m.sizeClass
  logged : Logged cfg t m m'

theorem emits_free_live {Q : Unit → Mem T B R → List (T × Event B) → Prop}
    (tr : Tracks cfg m.toHeap O a)
    (ho : o ∈ O) (hpos : 1 ≤ cfg.batchGlobal) (hle : cfg.batchGlobal ≤ cfg.cacheLocal + 1)
    (hQ : ∀ m' a' evs, Released cfg t m O a o m' a' →
      (a.excess (.unsized t) = 0 → (∀ i ∈ o.intoIndex, ClaimsDisowned t m.toHeap i) →
        Accounts cfg evs m.toHeap m'.toHeap) → Q () m' evs) :
    wpo Mem.handle Act.events (free cfg t o) Q
      (Fails False (¬ ((∀ i ∈ o.intoIndex, m.toHeap.Tidy t i) ∧ a.Exact))) m := by
  obtain ⟨i, b, hb, rfl, hidx⟩ := tr.exists_block ho
  obtain ⟨hbusy, hlt, -⟩ := tr.inv.busy_of_live hb
  have hbound := tr.inv.bound
  have htidy : (∀ j ∈ (Offset.fromBlock (m.sizeClass i) i b).intoIndex, m.toHeap.Tidy t j) ↔
      m.toHeap.Tidy t i := by
    rw [hidx]
    simp
  rw [htidy]
  refine emits_free tr.inv hb hpos hle fun m' a' evs freed hacc => hQ m' a' evs
    ⟨⟨freed.inv, ?_⟩, ?_, freed.sizeClass, freed.logged⟩ fun hexact hclaim =>
      hacc hexact (hclaim i (by rw [hidx]; rfl))
  · intro o
    rw [freed.sizeClass, freed.live, Set.mem_sdiff, Set.mem_singleton_iff, tr.mem]
    constructor
    · rintro ⟨⟨j, b', hb', rfl⟩, hne⟩
      refine ⟨j, b', ?_, rfl⟩
      by_cases hj : j = i
      · subst hj
        rw [Ledger.release_live_self, Finset.mem_erase]
        exact ⟨fun e => hne (by rw [Bit.toNat_inj e]), hb'⟩
      · rwa [Ledger.release_live_of_ne hj]
    · rintro ⟨j, b', hb', rfl⟩
      by_cases hj : j = i
      · subst hj
        rw [Ledger.release_live_self, Finset.mem_erase] at hb'
        refine ⟨⟨j, b', hb'.2, rfl⟩, fun he => hb'.1 ?_⟩
        obtain ⟨-, rfl⟩ := Tracks.block_inj tr.inv hbusy.isZero (hbusy.live_lt _ hb'.2) (by omega)
          rfl hb he
        rfl
      · rw [Ledger.release_live_of_ne hj] at hb'
        refine ⟨⟨j, b', hb', rfl⟩, fun he => hj ?_⟩
        exact (Tracks.block_inj tr.inv hbusy.isZero (hbusy.live_lt _ hb) (by omega) rfl hb'
          he.symm).1.symm
  · rw [htidy]
    exact freed.keeps

theorem wp_free_live (tr : Tracks cfg m.toHeap O a) (ho : o ∈ O) (hpos : 1 ≤ cfg.batchGlobal)
    (hle : cfg.batchGlobal ≤ cfg.cacheLocal + 1) :
    wp Mem.handle (free cfg t o) (fun _ m' => ∃ a', Released cfg t m O a o m' a')
      (Fails False (¬ ((∀ i ∈ o.intoIndex, m.toHeap.Tidy t i) ∧ a.Exact))) m :=
  wpo_iff_wp.mp (emits_free_live tr ho hpos hle fun _ a' _ hrel _ => ⟨a', hrel⟩)

end Heap

/-! ### Runs -/

namespace Session

variable {s s' : Session T B} {help : T → T → Version} {log : T → Option R} {cl : Call T B}

section

variable (hbatch : cfg.batchBump % 2 ^ 32 ≠ 0) (hpos : 1 ≤ cfg.batchGlobal)
  (hle : cfg.batchGlobal ≤ cfg.cacheLocal + 1)

include hbatch hpos hle

/-- What one completed call does to the ledger. -/
theorem call_spec (help : T → T → Version) (log : T → Option R) (tr : Tracks cfg s.heap s.live a)
    (hlegal : s.Legal cl) :
    match s.call cfg help log cl with
    | .ok s' => ∃ a', Tracks cfg s'.heap s'.live a' ∧
        ∀ k, cfg.batchBump < 2 ^ 32 → (s.TidyCall cl ∨ ∃ u, k = .unsized u) → a.Keeps a' k
    | .error e => Fails (s.heap.UsedUp cfg)
        (¬ (cfg.batchBump < 2 ^ 32 ∧ s.TidyCall cl ∧ a.Exact)) e := by
  cases cl with
  | allocate t c =>
    cases hc : isZero c with
    | true =>
      have hwp := Heap.wp_allocateBlock_zero (t := t)
        (m := ({ s.heap with help := help, log := log } : Mem T B R)) tr.inv hc
      simp only [call]
      cases hx : (Heap.allocateBlock cfg t c : Code T B R _).exec Mem.handle
          { s.heap with help := help, log := log } with
      | ok r =>
        obtain ⟨r, m'⟩ := r
        obtain ⟨rfl, rfl⟩ := wp_ok hwp hx
        exact ⟨a, by simpa using tr, fun _ _ _ h => h⟩
      | error e => exact (wp_error hwp hx).elim
    | false =>
      have hwp := Heap.wp_allocateBlock (t := t)
        (m := ({ s.heap with help := help, log := log } : Mem T B R)) tr hc hbatch
      simp only [call]
      cases hx : (Heap.allocateBlock cfg t c : Code T B R _).exec Mem.handle
          { s.heap with help := help, log := log } with
      | ok r =>
        obtain ⟨r, m'⟩ := r
        obtain ⟨o, a', rfl, hal⟩ := wp_ok hwp hx
        refine ⟨a', ?_, fun k hsmall _ => hal.keeps hsmall k⟩
        simpa using hal.tracks
      | error e =>
        refine (wp_error hwp hx).imp id fun h => ⟨h.1, ?_⟩
        exact fun hall => h.2 ⟨hall.1, hall.2.2⟩
  | free t o =>
    have hwp := Heap.wp_free_live (t := t)
      (m := ({ s.heap with help := help, log := log } : Mem T B R)) tr hlegal hpos hle
    simp only [call]
    cases hx : (Heap.free cfg t o : Code T B R _).exec Mem.handle
        { s.heap with help := help, log := log } with
    | ok r =>
      obtain ⟨⟨⟩, m'⟩ := r
      obtain ⟨a', hrel⟩ := wp_ok hwp hx
      refine ⟨a', ?_, fun k _ hk => hrel.keeps k hk⟩
      simpa using hrel.tracks
    | error e =>
      refine (wp_error hwp hx).imp (fun h => h.2.elim) fun h => ⟨h.1, ?_⟩
      exact fun hall => h.2 hall.2

/-- Every completed call keeps the ledger. -/
theorem tracks_step (tr : Tracks cfg s.heap s.live a) (hstep : Step R cfg s s') :
    ∃ a', Tracks cfg s'.heap s'.live a' := by
  obtain ⟨cl, help, log, hlegal, -, hcall⟩ := hstep
  have hspec := call_spec hbatch hpos hle help log tr hlegal
  rw [hcall] at hspec
  obtain ⟨a', tr', -⟩ := hspec
  exact ⟨a', tr'⟩

/-- There is a ledger in every state of a run. -/
theorem tracks_run (hrun : ReflTransGen (Step R cfg) zeroed s) :
    ∃ a, Tracks cfg s.heap s.live a := by
  induction hrun with
  | refl => exact ⟨Ledger.zeroed, by simpa [zeroed] using Tracks.zeroed⟩
  | tail _ hstep ih =>
    obtain ⟨a, tr⟩ := ih
    exact tracks_step hbatch hpos hle tr hstep

/-- Along a tidy run no length drifts. -/
theorem exact_run (hsmall : cfg.batchBump < 2 ^ 32)
    (hrun : ReflTransGen (TidyStep R cfg) zeroed s) :
    ∃ a, Tracks cfg s.heap s.live a ∧ a.Exact := by
  induction hrun with
  | refl => exact ⟨Ledger.zeroed, by simpa [zeroed] using Tracks.zeroed, fun _ => rfl⟩
  | tail _ hstep ih =>
    obtain ⟨a, tr, hex⟩ := ih
    obtain ⟨cl, help, log, hlegal, htidy, hcall⟩ := hstep
    have hspec := call_spec hbatch hpos hle help log tr hlegal
    rw [hcall] at hspec
    obtain ⟨a', tr', hkeeps⟩ := hspec
    exact ⟨a', tr', hex.keeps fun k => hkeeps k hsmall (.inl htidy)⟩

/-- The lengths of the unsized stacks never drift. -/
theorem unsized_run (hsmall : cfg.batchBump < 2 ^ 32)
    (hrun : ReflTransGen (Step R cfg) zeroed s) :
    ∃ a, Tracks cfg s.heap s.live a ∧ ∀ t, a.excess (.unsized t) = 0 := by
  induction hrun with
  | refl => exact ⟨Ledger.zeroed, by simpa [zeroed] using Tracks.zeroed, fun _ => rfl⟩
  | tail _ hstep ih =>
    obtain ⟨a, tr, hex⟩ := ih
    obtain ⟨cl, help, log, hlegal, -, hcall⟩ := hstep
    have hspec := call_spec hbatch hpos hle help log tr hlegal
    rw [hcall] at hspec
    obtain ⟨a', tr', hkeeps⟩ := hspec
    exact ⟨a', tr', fun t => hkeeps (.unsized t) hsmall (.inr ⟨t, rfl⟩) (hex t)⟩

end

/-- A script that ends in a state with `p`, found by running it. -/
theorem exists_of_any {α : Type} {o : Option α} {p : α → Prop} [DecidablePred p]
    (h : (o.any fun x => decide (p x)) = true) : ∃ x, o = some x ∧ p x := by
  cases o with
  | none => cases h
  | some x => exact ⟨x, rfl, of_decide_eq_true h⟩

end Session

namespace Running

variable {s s' : Running T B R}

omit [LawfulBracket B] in
/-- Such a call is one of the session. -/
theorem call_toSession {cl : Call T B} (h : s.call cfg cl = .ok s') :
    s.toSession.call cfg s.help s.log cl = .ok s'.toSession := by
  unfold call at h
  split at h
  · rename_i f m hx
    obtain rfl := Except.ok.inj h
    cases cl with
    | allocate t c =>
      obtain ⟨r, m₁, hrun, hrest⟩ := exec_bind_ok (p := Heap.allocateBlock cfg t c) hx
      have hrun : (Heap.allocateBlock cfg t c : Code T B R _).exec Mem.handle
          { s.heap with help := s.help, log := s.log } = .ok (r, m₁) := hrun
      simp only [Session.call, hrun]
      cases r with
      | none => cases hrest; rfl
      | some o => cases hrest; rfl
    | free t o =>
      obtain ⟨⟨⟩, m₁, hrun, hrest⟩ := exec_bind_ok (p := Heap.free cfg t o) hx
      have hrun : (Heap.free cfg t o : Code T B R _).exec Mem.handle
          { s.heap with help := s.help, log := s.log } = .ok ((), m₁) := hrun
      simp only [Session.call, hrun]
      cases hrest
      rfl
  · cases h

omit [LawfulBracket B] in
theorem run_of_script {P : Session T B → Call T B → Prop} [∀ s c, Decidable (P s c)]
    {cs : List (Call T B)} (hs : script P cfg cs s = some s') :
    ReflTransGen (Session.StepWhere R P cfg) s.toSession s'.toSession := by
  have hrun : ReflTransGen (fun s s' : Running T B R =>
      Session.StepWhere R P cfg s.toSession s'.toSession) s s' := by
    refine Lib.run_of_foldlM (fun s c s' h => ?_) hs
    obtain ⟨⟨hlegal, hP⟩, hcall⟩ := Lib.of_attempt h
    exact ⟨c, s.help, s.log, hlegal, hP, call_toSession hcall⟩
  exact hrun.lift toSession fun _ _ h => h

end Running

end Cxlalloc
