/-
Where the slabs are after any completed calls, and what `is_valid` finds there.

The first result is that no slab is lost or on two lists.  It fails for one setting of
the knobs: `Shared::bump` takes `batch_bump` as a `u32`, so a multiple of `2^32` hands
out an empty range whose first slab is used all the same.

The second is that the per-thread invariant `Owned::is_valid` passes wherever it is
checked.  It fails when a slab that is not on top of its stack becomes complete,
because `sized_to_unsized` then unlinks it without counting it out.

The third is that, `is_valid` apart, no check inside a call fails in correct use.
-/
import Cxlalloc.Proofs.Session

namespace Cxlalloc

open Lib
open Lib.Prog
open Cxlalloc.Bracket
open Relation

variable {T B R : Type} [Bracket B]

namespace Session

/-- Slab `i` is on no chain: all its blocks are handed out, and one of them is live. -/
structure Detached (s : Session T B) (i : Index B) : Prop where
  offChain : ∀ l, ¬ s.heap.OnChain l i
  empty : (s.heap.bits i).elems = ∅
  live : ∃ o ∈ s.live, o.intoIndex = some i
  owner : s.heap.owner i = none ∨ s.heap.owner i = s.heap.lastOwner i

/-- No slab is lost, and none is in two places. -/
structure Conserved (s : Session T B) : Prop where
  /-- Every chain ends, and visits no slab twice. -/
  acyclic : ∀ l, ∃ xs, Seg s.heap.next (s.heap.heads l) xs none ∧ xs.Nodup
  /-- Every slab that was handed out is on exactly one chain, or detached. -/
  placed : ∀ i, i.value < s.heap.bumpIndex → (∃! l, s.heap.OnChain l i) ∨ s.Detached i
  /-- A slab on a sized stack has the owner and the class of the stack, and a free block. -/
  sized : ∀ i t c, s.heap.OnChain (some (.sized t c)) i →
    s.heap.owner i = some t ∧ s.heap.sizeClass i = c ∧ (s.heap.bits i).elems.Nonempty
  /-- No other slab is on a chain. -/
  fresh : ∀ i l, s.heap.OnChain l i → i.value < s.heap.bumpIndex

variable {cfg : Config} {s : Session T B} {a : Ledger T B}

theorem conserved_of_tracks [LawfulBracket B] (tr : Tracks cfg s.heap s.live a) :
    s.Conserved where
  acyclic l := ⟨a.chain l, tr.inv.chains.seg l, tr.inv.chains.nodup l⟩
  placed i hi := by
    by_cases hout : ∀ l, i ∉ a.chain l
    · refine .inr ⟨fun l => by rw [tr.inv.onChain_iff]; exact hout l, ?_, ?_, (tr.inv.slab i).last⟩
      · exact ((tr.inv.slab i).detached hi hout).2.1
      · obtain ⟨hbusy, -, k, hk⟩ := (tr.inv.slab i).detached hi hout
        have hrows := LawfulBracket.rows_le (B := B)
        have hcount := LawfulBracket.count_le (s.heap.sizeClass i)
        have hlt := hbusy.live_lt k hk
        have hb : (Bit.fromLoose k).toNat = k := Bit.fromLoose_toNat (by omega)
        have hbound := tr.inv.bound
        refine ⟨Offset.fromBlock (s.heap.sizeClass i) i (Bit.fromLoose k), ?_, ?_⟩
        · exact (tr.mem _).mpr ⟨i, _, by rwa [hb], rfl⟩
        · exact Offset.intoIndex_fromBlock (by omega) hbusy.isZero (by rwa [hb])
    · push Not at hout
      obtain ⟨l, hl⟩ := hout
      refine .inl ⟨l, (tr.inv.onChain_iff l i).mpr hl, fun l' hl' => ?_⟩
      exact tr.inv.chains.disjoint l' l i ((tr.inv.onChain_iff l' i).mp hl') hl
  sized i t c hi := by
    rw [tr.inv.onChain_iff] at hi
    exact ((tr.inv.slab i).sized t c hi).2
  fresh i l hi := by
    rw [tr.inv.onChain_iff] at hi
    exact tr.inv.below hi

variable [DecidableEq T] [DecidableEq B] [FromState B R]

/-! ### Slab conservation -/

/-- **No completed call loses or duplicates a slab**, as long as `batch_bump` is no
multiple of `2^32`. -/
theorem slab_conservation [LawfulBracket B] (cfg : Config) (hbump : cfg.batchBump % 2 ^ 32 ≠ 0)
    (hpos : 1 ≤ cfg.batchGlobal) (hle : cfg.batchGlobal ≤ cfg.cacheLocal + 1)
    (s : Session T B) (hrun : ReflTransGen (Step R cfg) zeroed s) : s.Conserved := by
  obtain ⟨a, tr⟩ := tracks_run hbump hpos hle hrun
  exact conserved_of_tracks tr

/-- Thread 0 fills one slab, thread 1 frees one of its blocks. -/
theorem slab_conservation_remote_free : ∃ s : Session (Fin 2) Large,
    s.live.card = 1 ∧ s.heap.owner .min = some 0 ∧ s.Conserved := by
  obtain ⟨s, hs, hlive⟩ : ∃ s : Running (Fin 2) Large (HeapState Large),
      Running.script (fun _ _ => True) (.initial true)
        [.allocate 0 ⟨8⟩, .allocate 0 ⟨8⟩, .free 1 (.fromBlock ⟨8⟩ .min ⟨0, 0⟩)]
        .zeroed = some s ∧ (s.live.card = 1 ∧ s.heap.owner .min = some 0) :=
    exists_of_any (by decide +kernel)
  exact ⟨s.toSession, hlive.1, hlive.2, slab_conservation (.initial true) (by decide) (by decide)
    (by decide) _ (Running.run_of_script hs)⟩

/-- With `batch_bump = 2^32` the first allocation takes a slab without moving the bump
index: the slab is on a stack and was never handed out. -/
theorem slab_conservation_truncated_batch : ∃ s : Session (Fin 1) Large,
    ReflTransGen (Step (HeapState Large) { Config.initial false with batchBump := 2 ^ 32 })
      zeroed s ∧ ¬ s.Conserved := by
  obtain ⟨s, hs, hhead, hnext, hbump⟩ : ∃ s : Running (Fin 1) Large (HeapState Large),
      Running.script (fun _ _ => True) { Config.initial false with batchBump := 2 ^ 32 }
        [.allocate 0 ⟨8⟩] .zeroed = some s ∧
        (s.heap.head (.sized 0 ⟨8⟩) = some .min ∧ s.heap.next .min = none ∧
          s.heap.bumpIndex = 1) :=
    exists_of_any (by decide +kernel)
  refine ⟨s.toSession, Running.run_of_script hs, fun hcons => ?_⟩
  have := hcons.fresh .min (some (.sized 0 ⟨8⟩)) ⟨[.min], ⟨hhead, hnext⟩, by simp⟩
  rw [hbump] at this
  exact absurd this (by decide)

/-! ### The tuning knobs -/

/-- The lists of a heap are whole, and no legal call stops at a subtraction or an `unwrap`
of its own; the index of the last bump may be used up, and `is_valid` may be asked. -/
structure Intact (R : Type) [FromState B R] (cfg : Config) (s : Session T B) : Prop where
  conserved : s.Conserved
  lens : ∀ t, ∃ xs, Seg s.heap.next (s.heap.head (.unsized t)) xs none ∧
    s.heap.len (.unsized t) = xs.length
  returns : ∀ (c : Call T B) (help : T → T → Version) (log : T → Option R) e, s.Legal c →
    s.panicOf cfg help log c = some e →
      e = .invalidOwned ∨ e = .indexOverflow ∧ s.heap.UsedUp cfg

/-- Where a call on a tracked heap can stop. -/
theorem panic_of_tracks [LawfulBracket B] {cfg : Config} {s : Session T B}
    {a : Ledger T B} (tr : Tracks cfg s.heap s.live a) (hmod : cfg.batchBump % 2 ^ 32 ≠ 0)
    (hpos : 1 ≤ cfg.batchGlobal) (hle : cfg.batchGlobal ≤ cfg.cacheLocal + 1) {c : Call T B}
    {help : T → T → Version} {log : T → Option R} (hlegal : s.Legal c) {e : Panic}
    (hpanic : s.panicOf cfg help log c = some e) :
    e = .invalidOwned ∨ e = .indexOverflow ∧ s.heap.UsedUp cfg := by
  have hspec := call_spec hmod hpos hle help log tr hlegal
  rw [panicOf] at hpanic
  cases hcall : s.call cfg help log c with
  | ok s' =>
    rw [hcall] at hpanic
    cases hpanic
  | error e' =>
    rw [hcall] at hspec hpanic
    obtain rfl := Option.some.inj hpanic
    rcases hspec with hused | ⟨hinvalid, -⟩
    · exact .inr hused
    · exact .inl hinvalid

/-- **The knobs cannot break the lists** while a batch for the global stack is not empty and
no larger than what is found over the limit, and a batch of new slabs fits in 32 bits. -/
theorem intact_of_knobs [LawfulBracket B] (cfg : Config) (hbump : 1 ≤ cfg.batchBump)
    (hsmall : cfg.batchBump < 2 ^ 32) (hpos : 1 ≤ cfg.batchGlobal)
    (hle : cfg.batchGlobal ≤ cfg.cacheLocal + 1) (s : Session T B)
    (hrun : ReflTransGen (Step R cfg) zeroed s) : s.Intact R cfg := by
  have hmod : cfg.batchBump % 2 ^ 32 ≠ 0 := by
    rw [Nat.mod_eq_of_lt hsmall]
    omega
  obtain ⟨a, tr, hexact⟩ := unsized_run hmod hpos hle hsmall hrun
  constructor
  case conserved => exact conserved_of_tracks tr
  case lens =>
    intro t
    refine ⟨a.chain (some (.unsized t)), tr.inv.chains.seg (some (.unsized t)), ?_⟩
    rw [tr.inv.lens, hexact, Nat.add_zero]
  case returns =>
    intro c help log e hlegal hpanic
    exact panic_of_tracks tr hmod hpos hle hlegal hpanic

/-- Two slabs are cached, and a third goes to the global stack in a batch of two. -/
theorem intact_of_knobs_batch : ∃ s : Session (Fin 1) Large,
    s.heap.len (.unsized 0) = 1 ∧ s.heap.global.inner = some (Index.min.succ.succ) ∧
      s.Intact (HeapState Large) { Config.initial false with cacheLocal := 2, batchGlobal := 2 } := by
  obtain ⟨s, hs, hlen, hglobal⟩ : ∃ s : Running (Fin 1) Large (HeapState Large),
      Running.script (fun _ _ => True)
        { Config.initial false with cacheLocal := 2, batchGlobal := 2 }
        [.allocate 0 ⟨9⟩, .allocate 0 ⟨9⟩, .allocate 0 ⟨9⟩,
          .free 0 (.fromBlock ⟨9⟩ .min ⟨0, 0⟩),
          .free 0 (.fromBlock ⟨9⟩ Index.min.succ ⟨0, 0⟩),
          .free 0 (.fromBlock ⟨9⟩ Index.min.succ.succ ⟨0, 0⟩)] .zeroed = some s ∧
        (s.heap.len (.unsized 0) = 1 ∧ s.heap.global.inner = some (Index.min.succ.succ)) :=
    exists_of_any (by decide +kernel)
  exact ⟨s.toSession, hlen, hglobal, intact_of_knobs _ (by decide) (by decide) (by decide) (by decide) _
    (Running.run_of_script hs)⟩

/-- An empty batch has no head to unwrap, and a batch of two is more than one cached slab. -/
theorem knobs_panic :
    (∃ s : Session (Fin 1) Large,
      ReflTransGen (Step (HeapState Large) { Config.initial false with batchGlobal := 0 }) zeroed s ∧
      s.Legal (.free 0 (.fromBlock ⟨9⟩ .min ⟨0, 0⟩)) ∧
      s.panicOf (R := HeapState Large) { Config.initial false with batchGlobal := 0 }
        (fun _ _ => 0) (fun _ => none)
        (.free 0 (.fromBlock ⟨9⟩ .min ⟨0, 0⟩)) = some .unwrapNone) ∧
    ∃ s : Session (Fin 1) Large,
      ReflTransGen (Step (HeapState Large) { Config.initial false with batchGlobal := 2 }) zeroed s ∧
      s.Legal (.free 0 (.fromBlock ⟨9⟩ .min ⟨0, 0⟩)) ∧
      s.panicOf (R := HeapState Large) { Config.initial false with batchGlobal := 2 }
        (fun _ _ => 0) (fun _ => none)
        (.free 0 (.fromBlock ⟨9⟩ .min ⟨0, 0⟩)) = some .overflow := by
  have hfail : ∀ (n : ℕ) (e : Panic),
      ((Running.script (fun _ _ => True) { Config.initial false with batchGlobal := n }
        [.allocate 0 ⟨9⟩] (.zeroed : Running (Fin 1) Large (HeapState Large))).any fun s => decide
          (s.Legal (.free 0 (.fromBlock ⟨9⟩ .min ⟨0, 0⟩)) ∧
          s.panicOf (R := HeapState Large) { Config.initial false with batchGlobal := n }
            (fun _ _ => 0) (fun _ => none)
            (.free 0 (.fromBlock ⟨9⟩ .min ⟨0, 0⟩)) = some e)) = true →
      ∃ s : Session (Fin 1) Large,
        ReflTransGen (Step (HeapState Large) { Config.initial false with batchGlobal := n }) zeroed
          s ∧
        s.Legal (.free 0 (.fromBlock ⟨9⟩ .min ⟨0, 0⟩)) ∧
        s.panicOf (R := HeapState Large) { Config.initial false with batchGlobal := n }
          (fun _ _ => 0) (fun _ => none)
          (.free 0 (.fromBlock ⟨9⟩ .min ⟨0, 0⟩)) = some e := by
    intro n e h
    obtain ⟨s, hs, hpanic⟩ := exists_of_any h
    exact ⟨s.toSession, Running.run_of_script hs, hpanic⟩
  exact ⟨hfail 0 .unwrapNone (by decide +kernel), hfail 2 .overflow (by decide +kernel)⟩

/-! ### The per-thread invariant -/

/-- **`is_valid` passes for every thread**, after every call and at every check inside
one, as long as `batch_bump` fits in 32 bits and every free that completes a slab finds
it without a free block or on top of its stack. -/
theorem isValid_of_tidy [LawfulBracket B] (cfg : Config) (hbump : 1 ≤ cfg.batchBump)
    (hsmall : cfg.batchBump < 2 ^ 32) (hpos : 1 ≤ cfg.batchGlobal)
    (hle : cfg.batchGlobal ≤ cfg.cacheLocal + 1) (s : Session T B)
    (hrun : ReflTransGen (TidyStep R cfg) zeroed s) :
    (∀ t, s.heap.isValid t = true) ∧
      ∀ (c : Call T B) (help : T → T → Version) (log : T → Option R),
        s.Legal c → s.TidyCall c → s.panicOf cfg help log c ≠ some .invalidOwned := by
  have hmod : cfg.batchBump % 2 ^ 32 ≠ 0 := by
    rw [Nat.mod_eq_of_lt hsmall]
    omega
  obtain ⟨a, tr, hex⟩ := exact_run hmod hpos hle hsmall hrun
  refine ⟨fun t => (tr.inv.isValid_iff t).mpr (hex.at t), ?_⟩
  intro c help log hlegal htidy hpanic
  have hspec := call_spec hmod hpos hle help log tr hlegal
  rw [panicOf] at hpanic
  cases hcall : s.call cfg help log c with
  | ok s' => rw [hcall] at hpanic; cases hpanic
  | error e =>
    rw [hcall] at hspec hpanic
    obtain rfl := Option.some.inj hpanic
    rcases hspec with h | h
    · cases h.1
    · exact h.2 ⟨hsmall, htidy, hex⟩

/-- The owner completes the slab on top of its stack. -/
theorem isValid_of_tidy_top : ∃ s : Session (Fin 1) Large,
    s.live.card = 2 ∧ s.heap.len (.sized 0 ⟨8⟩) = 0 ∧ s.heap.isValid 0 = true := by
  obtain ⟨s, hs, hlive⟩ : ∃ s : Running (Fin 1) Large (HeapState Large),
      Running.script TidyCall (.initial true)
        [.allocate 0 ⟨8⟩, .allocate 0 ⟨8⟩, .allocate 0 ⟨8⟩, .allocate 0 ⟨8⟩,
          .free 0 (.fromBlock ⟨8⟩ .min ⟨0, 0⟩),
          .free 0 (.fromBlock ⟨8⟩ .min ⟨1, 0⟩)] .zeroed = some s ∧
        (s.live.card = 2 ∧ s.heap.len (.sized 0 ⟨8⟩) = 0) :=
    exists_of_any (by decide +kernel)
  exact ⟨s.toSession, hlive.1, hlive.2, (isValid_of_tidy (.initial true) (by decide) (by decide)
    (by decide) (by decide) _ (Running.run_of_script hs)).1 0⟩

/-- The script of `isValid_fails_behind`: two slabs of two blocks each are handed out,
then three blocks are freed so that the slab behind the other one becomes complete. -/
def behindScript : List (Call (Fin 1) Large) :=
  [.allocate 0 ⟨8⟩, .allocate 0 ⟨8⟩, .allocate 0 ⟨8⟩, .allocate 0 ⟨8⟩,
    .free 0 (.fromBlock ⟨8⟩ .min ⟨0, 0⟩),
    .free 0 (.fromBlock ⟨8⟩ Index.min.succ ⟨0, 0⟩)]

/-- Completing a slab that is behind another one trips the check. -/
theorem isValid_fails_behind : ∃ s : Session (Fin 1) Large,
    ReflTransGen (Step (HeapState Large) (.initial true)) zeroed s ∧
      s.Legal (.free 0 (.fromBlock ⟨8⟩ .min ⟨1, 0⟩)) ∧
      s.panicOf (R := HeapState Large) (.initial true) (fun _ _ => 0) (fun _ => none)
        (.free 0 (.fromBlock ⟨8⟩ .min ⟨1, 0⟩)) = some .invalidOwned := by
  obtain ⟨s, hs, hfail⟩ : ∃ s : Running (Fin 1) Large (HeapState Large),
      Running.script (fun _ _ => True) (.initial true) behindScript .zeroed = some s ∧
      (s.Legal (.free 0 (.fromBlock ⟨8⟩ .min ⟨1, 0⟩)) ∧
      s.panicOf (R := HeapState Large) (.initial true) (fun _ _ => 0) (fun _ => none)
        (.free 0 (.fromBlock ⟨8⟩ .min ⟨1, 0⟩)) = some .invalidOwned) :=
    exists_of_any (by decide +kernel)
  exact ⟨s.toSession, Running.run_of_script hs, hfail⟩

/-! ### The checks inside a call -/

/-- An empty range of new slabs does not get past `is_valid`: the recorded length of the
unsized stack is the whole batch, and there is no slab on it. -/
theorem wp_allocateBlock_empty {cfg : Config} (hvalidate : cfg.validate = true)
    (hbump : 1 ≤ cfg.batchBump) (hmod : cfg.batchBump % 2 ^ 32 = 0) {t : T} {c : B}
    (hc : isZero c = false) {m : Mem T B R} (hm : m.toHeap = Heap.zeroed) :
    wp Mem.handle (Heap.allocateBlock cfg t c) (fun _ _ => False) (· = .invalidOwned) m := by
  have hlarge : 2 ^ 32 ≤ cfg.batchBump := by omega
  have hhead : ∀ k, m.head k = none := fun k => by rw [hm]; rfl
  have hglobal : m.global.inner = none := by rw [hm]; rfl
  simp only [Heap.allocateBlock, Heap.peek, wp_bind, Stack.wp_peek, hhead]
  rw [Heap.allocate, if_neg (by simp [hc]), wp_bind]
  refine Heap.wp_unsizedToSized_nil (hhead _) ?_
  rw [if_neg (by simp), wp_bind]
  refine Heap.wp_sharedPop_none hglobal fun m₁ hm₁ _ => ?_
  simp only [wp_bind]
  refine Heap.wp_bumpRange ?_ ?_
  · intro m₂ start e w hstart he _ hw hm₂
    have hn : e.value - start.value = 0 := by omega
    rw [hm₁, hm] at hm₂
    simp only [wp_record]
    rw [hn, Slab.link, wp_pure, Stack.wp_set]
    simp only [Heap.unsizedToSized, wp_bind, Stack.wp_peek, Function.update_self, wp_loadNext, Heap.log,
      wp_storeLog, wp_storeClass, wp_loadBits, wp_storeBits, Stack.wp_push, wp_store, wp_loadLen]
    rw [wp_checkedSub (by simp [Heap.setWord]; omega)]
    simp only [Stack.wp_set, wp_pure, Heap.setWord, Heap.validateOwned, hvalidate, if_true, wp_check]
    rw [if_neg]
    · trivial
    · rw [Heap.isValid_of_missing, Bool.false_eq_true]
      · exact not_false
      · simp [hm₂, Heap.zeroed]
      · have hne : StackId.unsized t ≠ .sized t c := by simp
        simp only [Function.update_self, Function.update_of_ne hne]
        omega
  · intro hused
    rw [Heap.UsedUp, hm₁, hm, hmod] at hused
    have hone : (Heap.zeroed : Heap T B).bumpIndex = 1 := rfl
    omega

/-- If the first range of new slabs is empty, no call changes anything. -/
theorem zeroed_of_empty {cfg : Config} (hvalidate : cfg.validate = true) (hbump : 1 ≤ cfg.batchBump)
    (hmod : cfg.batchBump % 2 ^ 32 = 0) {c : Call T B} (help : T → T → Version)
    (log : T → Option R) (hlegal : (zeroed : Session T B).Legal c) :
    (zeroed : Session T B).call cfg help log c = .ok zeroed ∨
      (zeroed : Session T B).call cfg help log c = .error .invalidOwned := by
  cases c with
  | free t o => cases hlegal
  | allocate t c =>
    rw [call]
    cases hc : isZero c with
    | true =>
      have inv : Inv cfg (zeroed : Session T B).heap Ledger.zeroed := .zeroed
      have hwp := Heap.wp_allocateBlock_zero (t := t)
        (m := ({ (zeroed : Session T B).heap with help := help, log := log } : Mem T B R)) inv hc
      obtain ⟨r, m', hx, rfl, rfl⟩ := wp_returns hwp
      left
      rw [hx]
    | false =>
      right
      have hwp := wp_allocateBlock_empty (m := ({ (zeroed : Session T B).heap with
        help := help, log := log } : Mem T B R)) (t := t) hvalidate hbump hmod hc rfl
      cases hx : (Heap.allocateBlock cfg t c : Code T B R _).exec Mem.handle
          { (zeroed : Session T B).heap with help := help, log := log } with
      | ok r => exact (wp_ok hwp hx).elim
      | error e => rw [← wp_error hwp hx]

theorem zeroed_of_empty_run {cfg : Config} (hvalidate : cfg.validate = true)
    (hbump : 1 ≤ cfg.batchBump) (hmod : cfg.batchBump % 2 ^ 32 = 0) {s : Session T B}
    (hrun : ReflTransGen (Step R cfg) zeroed s) : s = zeroed := by
  induction hrun with
  | refl => rfl
  | tail _ hstep ih =>
    obtain ⟨c, help, log, hlegal, -, hcall⟩ := hstep
    rw [ih] at hlegal hcall
    rcases zeroed_of_empty hvalidate hbump hmod help log hlegal with hsame | hstop
    · exact (Except.ok.inj (hsame.symm.trans hcall)).symm
    · cases hstop.symm.trans hcall

/-- **The checks inside a call do not fail in correct use.**  Of all the ways to stop, two
are left: the check of `is_valid`, and an index past the last one. -/
theorem checks_pass [LawfulBracket B] (cfg : Config) (hvalidate : cfg.validate = true)
    (hbump : 1 ≤ cfg.batchBump) (hpos : 1 ≤ cfg.batchGlobal)
    (hle : cfg.batchGlobal ≤ cfg.cacheLocal + 1) (s : Session T B)
    (hrun : ReflTransGen (Step R cfg) zeroed s) :
    ∀ (c : Call T B) (help : T → T → Version) (log : T → Option R) (e : Panic), s.Legal c →
      s.panicOf cfg help log c = some e →
        e = .invalidOwned ∨ e = .indexOverflow ∧ s.heap.UsedUp cfg := by
  intro c help log e hlegal hpanic
  by_cases hmod : cfg.batchBump % 2 ^ 32 = 0
  · -- the first allocation stops at `is_valid`, so there is no run to speak of
    obtain rfl := zeroed_of_empty_run hvalidate hbump hmod hrun
    rw [panicOf] at hpanic
    rcases zeroed_of_empty hvalidate hbump hmod help log hlegal with hsame | hstop
    · rw [hsame] at hpanic
      cases hpanic
    · rw [hstop] at hpanic
      exact .inl (Option.some.inj hpanic).symm
  · obtain ⟨a, tr⟩ := tracks_run hmod hpos hle hrun
    exact panic_of_tracks tr hmod hpos hle hlegal hpanic

/-- A slab that was disowned has one block left, and its last free is remote. -/
theorem checks_pass_claim : ∃ s : Session (Fin 2) Large,
    s.live = {.fromBlock ⟨8⟩ .min ⟨1, 0⟩} ∧ s.heap.owner .min = none ∧
      ∀ e, s.panicOf (R := HeapState Large) (.initial true) (fun _ _ => 0) (fun _ => none)
        (.free 1 (.fromBlock ⟨8⟩ .min ⟨1, 0⟩)) = some e →
          e = .invalidOwned ∨ e = .indexOverflow ∧ s.heap.UsedUp (.initial true) := by
  obtain ⟨s, hs, hlive, howner⟩ : ∃ s : Running (Fin 2) Large (HeapState Large),
      Running.script (fun _ _ => True) (.initial true)
        [.allocate 0 ⟨8⟩, .free 1 (.fromBlock ⟨8⟩ .min ⟨0, 0⟩),
          .allocate 0 ⟨8⟩] .zeroed = some s ∧
        (s.live = {.fromBlock ⟨8⟩ .min ⟨1, 0⟩} ∧ s.heap.owner .min = none) :=
    exists_of_any (by decide +kernel)
  refine ⟨s.toSession, hlive, howner, fun e => checks_pass _ rfl (by decide) (by decide) (by decide) _
    (Running.run_of_script hs) _ _ _ e ?_⟩
  rw [Legal, hlive]
  exact Finset.mem_singleton_self _

end Session

end Cxlalloc
