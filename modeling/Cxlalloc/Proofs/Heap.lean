/-
What the operations of the heap do to the ledger.

One rule per function of `heap.rs`, in the form its callers use: from the invariant and
a postcondition that follows from what the function guarantees, to the weakest
precondition of the call.  Every panic that the rules leave open is in `Fails`: the
32-bit index is used up, or `is_valid` was asked about lengths that have drifted.

The rules of the functions that record events also say which ones, as far as slabs are
concerned: the events account for the slabs that have moved.  Functions that record
nothing have a rule for `wp`, the others one for `wpo`.
-/
import Cxlalloc.Lib.Observe
import Cxlalloc.Proofs.Memory
import Cxlalloc.Proofs.IsValid
import Cxlalloc.Proofs.Census
import Cxlalloc.Proofs.Footprint

namespace Cxlalloc

open Lib
open Lib.Prog
open Cxlalloc.Bracket
open Function

variable {T B R : Type} [Bracket B] [DecidableEq T] [DecidableEq B]

/-- The panics of a call on a heap that represents a ledger. -/
def Fails (usedUp drifted : Prop) (e : Panic) : Prop :=
  (e = .indexOverflow ∧ usedUp) ∨ (e = .invalidOwned ∧ drifted)

/-- The next bump would pass the last 32-bit index. -/
def Heap.UsedUp (cfg : Config) (h : Heap T B) : Prop :=
  2 ^ 32 ≤ h.bumpIndex + cfg.batchBump % 2 ^ 32

/-- What the record of a thread says about its unsized stack between two calls. -/
def RecordOk (cfg : Config) (t : T) (h : Heap T B) : HeapState B → Prop
  | .unsizedToSized index c => h.head (.unsized t) = index ∧ isZero c = false
  | .applicationToSized _ _ => True
  | .unsizedToGlobal index _ => h.head (.unsized t) ≠ some index
  | .remote index _ last =>
    last = true → h.head (.unsized t) = some index ∧ h.len (.unsized t) ≤ cfg.cacheLocal
  | _ => False

/-- A call of thread `t` either left its record and its unsized stack alone, or wrote a
record that fits. -/
def Logged [FromState B R] (cfg : Config) (t : T) (m m' : Mem T B R) : Prop :=
  (m'.log t = m.log t ∧ m'.head (.unsized t) = m.head (.unsized t) ∧
    m'.len (.unsized t) = m.len (.unsized t)) ∨
  ∃ r : HeapState B, m'.log t = some (FromState.fromState r) ∧ RecordOk cfg t m'.toHeap r

variable {cfg : Config} {t : T} {c : B} {i : Index B} {m : Mem T B R} {a : Ledger T B}
  {E : Panic → Prop} {xs : List (Index B)} {Q : Unit → Mem T B R → List (T × Event B) → Prop}

/-! ### Recording -/

/-- The events an access records. -/
def Act.events (β : Type) : Act T B R β → List (T × Event B)
  | .record t e => [(t, e)]
  | _ => []

section

variable {α β : Type} {Q : α → Mem T B R → List (T × Event B) → Prop}

omit [DecidableEq T] [DecidableEq B] in
theorem quiet_of_by {p : Code T B R α} (hp : Built t { event := fun _ => False } p) :
    p.Only (Quiet Act.events) := by
  refine (hp.only trivial).mono fun β act hact => ?_
  cases act with
  | record u e => exact hact.elim
  | _ => rfl

/-- A first part that records nothing. -/
theorem emits_quiet {p : Code T B R β} {f : β → Code T B R α}
    (hp : Built t { event := fun _ => False } p) :
    wpo Mem.handle Act.events (p >>= f) Q E m ↔
      wp Mem.handle p (fun b m' => wpo Mem.handle Act.events (f b) Q E m') E m :=
  wpo_bind_of_quiet (quiet_of_by hp)

/-- A last part that records nothing. -/
theorem emits_last {p : Code T B R α} (hp : Built t { event := fun _ => False } p) :
    wpo Mem.handle Act.events p Q E m ↔ wp Mem.handle p (fun a m' => Q a m' []) E m :=
  wpo_of_quiet (quiet_of_by hp)

/-- An access that records nothing. -/
theorem emits_access (act : Act T B R β) (hact : act.events = []) {f : β → Code T B R α} :
    wpo Mem.handle Act.events (lift act >>= f) Q E m ↔
      wp Mem.handle (lift act) (fun b m' => wpo Mem.handle Act.events (f b) Q E m') E m :=
  wpo_bind_of_quiet (.lift hact)

theorem emits_last_access (act : Act T B R α) (hact : act.events = []) :
    wpo Mem.handle Act.events (lift act) Q E m ↔
      wp Mem.handle (lift act) (fun a m' => Q a m' []) E m :=
  wpo_of_quiet (.lift hact)

@[simp] theorem emits_record {u : T} {e : Event B} {f : Unit → Code T B R α} :
    wpo Mem.handle Act.events (lift (.record u e) >>= f) Q E m ↔
      wpo Mem.handle Act.events (f ()) (fun a m' evs => Q a m' ((u, e) :: evs)) E m :=
  wpo_bind_report rfl rfl

end

omit [DecidableEq T] [DecidableEq B] in
theorem RecordOk.congr {h h' : Heap T B} {r : HeapState B} (hr : RecordOk cfg t h r)
    (hhead : h'.head (.unsized t) = h.head (.unsized t))
    (hlen : h'.len (.unsized t) = h.len (.unsized t)) : RecordOk cfg t h' r := by
  unfold RecordOk at hr ⊢
  rw [hhead, hlen]
  exact hr

namespace Heap

theorem wp_validateOwned [LawfulBracket B] {Q : Unit → Mem T B R → Prop}
    (inv : Inv cfg m.toHeap a) (hQ : Q () m) (hE : ¬ a.ExactAt t → E .invalidOwned) :
    wp Mem.handle (validateOwned cfg t) Q E m := by
  rw [validateOwned]
  cases cfg.validate with
  | false => exact hQ
  | true =>
    rw [if_pos rfl, wp_check]
    by_cases hv : m.toHeap.isValid t = true
    · rwa [if_pos hv]
    · rw [if_neg hv]
      exact hE ((inv.isValid_iff t).not.mp hv)

variable [FromState B R]

/-! ### Getting a slab -/

theorem wp_unsizedToSized_nil {Q : Bool → Mem T B R → Prop} (hh : m.head (.unsized t) = none)
    (hQ : Q false m) : wp Mem.handle (unsizedToSized t c) Q E m := by
  simp only [unsizedToSized, wp_bind, Stack.wp_peek, hh]
  exact hQ

theorem wp_unsizedToSized [LawfulBracket B] {Q : Bool → Mem T B R → Prop}
    (inv : Inv cfg m.toHeap a) (hc : isZero c = false)
    (hl : a.chain (some (.unsized t)) = i :: xs)
    (hQ : ∀ m' : Mem T B R, Inv cfg m'.toHeap (a.move i (some (.unsized t)) (some (.sized t c))) →
      (∀ j, j ≠ i → m'.sizeClass j = m.sizeClass j) →
      m'.log t = some (FromState.fromState (.unsizedToSized (m'.head (.unsized t)) c)) →
      Accounts cfg [(t, .unsizedToSized c)] m.toHeap m'.toHeap → Q true m') :
    wp Mem.handle (unsizedToSized t c) Q E m := by
  have hh : m.head (.unsized t) = some i := by rw [inv.head_eq, hl]; rfl
  have hlen : 1 ≤ m.len (.unsized t) := by
    rw [inv.lens, hl, List.length_cons]
    omega
  simp only [unsizedToSized, wp_bind, Stack.wp_peek, hh, wp_loadNext, log, wp_storeLog,
    wp_storeClass, wp_loadBits, wp_storeBits, Stack.wp_push, wp_store, wp_loadLen]
  rw [wp_checkedSub (by simpa [setWord] using hlen)]
  simp only [Stack.wp_set, wp_pure, setWord]
  have inv' := inv.unsizedToSized (t := t) (c := c) hc hl
    (w := { id := some t, version := 0, inner := ⟨count c⟩ }) rfl
  refine hQ _ ?_ ?_ ?_ ?_
  · simpa using inv'
  · intro j hj
    simp [hj]
  · simp
  · have hi : i ∈ a.chain (some (.unsized t)) := by simp [hl]
    have hne : (some (.unsized t) : Loc T B) ≠ some (.sized t c) := by simp
    refine inv.accounts_move hi hne (by simpa using inv') rfl rfl (fun _ _ => rfl) ?_ rfl
    intro j hj
    simp [hj]

theorem wp_sharedPop_none {Q : Option (Index B) → Mem T B R → Prop}
    (hg : m.global.inner = none) (hQ : ∀ m' : Mem T B R, m'.toHeap = m.toHeap → m'.log = m.log →
      Q none m') : wp Mem.handle (sharedPop cfg t) Q E m := by
  simp only [sharedPop, Global.isEmpty, wp_bind, wp_load, wp_pure, Heap.word, hg,
    Option.isNone_none, if_true]
  exact hQ _ (by simp) (by simp)

theorem wp_sharedPop_some {Q : Option (Index B) → Mem T B R → Prop}
    (hg : m.global.inner = some i)
    (hQ : ∀ (m' : Mem T B R) (w : Word T (Option (Index B))), w.inner = m.next i →
      m'.toHeap = { m.toHeap with global := w } → Q (some i) m') :
    wp Mem.handle (sharedPop cfg t) Q E m := by
  simp only [sharedPop, Global.isEmpty, wp_bind, wp_load, wp_pure, Heap.word, hg,
    Option.isNone_some, Bool.false_eq_true, if_false, Global.pop]
  refine wp_update ?_
  simp only [Heap.word, Mem.helped_toHeap, hg, wp_bind, wp_loadNext, wp_pure,
    Mem.announced_toHeap, true_and]
  exact hQ _ { id := some t, version := _, inner := _ } rfl rfl

variable {n : ℕ}

omit [FromState B R] in
theorem wp_addIndex {Q : Index B → Mem T B R → Prop}
    (hQ : ∀ e : Index B, e.value = i.value + n → e.value < 2 ^ 32 → i.add n = some e → Q e m)
    (hE : 2 ^ 32 ≤ i.value + n → E .indexOverflow) : wp Mem.handle (addIndex i n) Q E m := by
  rw [addIndex]
  cases hadd : i.add n with
  | none =>
    refine hE (Nat.le_of_not_lt fun hlt => ?_)
    rw [Index.add, if_pos hlt] at hadd
    cases hadd
  | some e =>
    rw [Index.add] at hadd
    split at hadd
    · rename_i hlt
      obtain rfl := Option.some.inj hadd
      exact hQ _ rfl hlt (by rw [Index.add, if_pos hlt])
    · cases hadd

theorem wp_bumpRange {Q : Index B × Index B → Mem T B R → Prop}
    (hQ : ∀ (m' : Mem T B R) (start e : Index B) (w : Word T (Option (Index B))),
      start.value = m.bumpIndex → e.value = start.value + cfg.batchBump % 2 ^ 32 →
      e.value < 2 ^ 32 → w.inner = some e → m'.toHeap = { m.toHeap with bump := w } →
      Q (start, e) m') (hE : UsedUp cfg m.toHeap → E .indexOverflow) :
    wp Mem.handle (bumpRange cfg t) Q E m := by
  simp only [bumpRange, wp_bind]
  refine wp_update ?_
  simp only [Heap.word, wp_bind]
  refine wp_addIndex ?_ hE
  intro e he hlt hadd
  simp only [wp_pure, Mem.announced_toHeap, wp_unwrap_some, true_and]
  rw [addIndex, hadd]
  exact hQ _ _ e { id := some t, version := _, inner := _ } rfl he hlt rfl rfl

omit [DecidableEq T] [DecidableEq B] in
/-- Linking a range is linking its first slab and then the rest. -/
theorem linked_succ {h : Heap T B} :
    linked
      { h with
        owner := update h.owner i (some t)
        lastOwner := update h.lastOwner i (some t)
        next := update h.next i (if n = 0 then none else some i.succ) } t n i.succ =
      h.linked t (n + 1) i := by
  have hsucc : i.succ.value = i.value + 1 := rfl
  have hnotin : i ∉ i.succ.run n := by
    rw [Index.mem_run]
    omega
  simp only [linked, Index.run, List.mem_cons]
  congr 1
  · funext j
    by_cases hj : j = i
    · subst hj
      simp [hnotin]
    · simp only [hj, update_of_ne, false_or, ne_eq, not_false_eq_true, hsucc]
      congr 2
      simp only [eq_iff_iff]
      omega
  · funext j
    by_cases hj : j = i
    · subst hj; simp [hnotin]
    · simp [hj]
  · funext j
    by_cases hj : j = i
    · subst hj; simp [hnotin]
    · simp [hj]

omit [FromState B R] in
theorem wp_link {Q : Unit → Mem T B R → Prop} (ho : ∀ j ∈ i.run n, m.owner j = none)
    (hQ : Q () { m with toHeap := m.toHeap.linked t n i }) :
    wp Mem.handle (Slab.link cfg t none n i) Q E m := by
  induction n generalizing i m with
  | zero =>
    have hid : m.toHeap.linked t 0 i = m.toHeap := by simp [linked, Index.run]
    rw [hid] at hQ
    exact hQ
  | succ n ih =>
    have hfirst : m.owner i = none := ho i (by simp [Index.run])
    have hsucc : i.succ.value = i.value + 1 := rfl
    have hnotin : i ∉ i.succ.run n := by
      rw [Index.mem_run]
      omega
    simp only [Slab.link, wp_bind]
    rw [Slab.wp_own fun _ => hfirst, wp_storeNext]
    refine ih ?_ ?_
    · intro j hj
      have hne : j ≠ i := fun e => hnotin (e ▸ hj)
      simpa [hne] using ho j (by simp [Index.run, hj])
    · rw [← linked_succ] at hQ
      exact hQ

/-- What `allocate` and `peek` leave behind: slab `i` on top of the sized stack, and no
live block touched. -/
structure Ready (cfg : Config) (t : T) (c : B) (m : Mem T B R) (a : Ledger T B) (i : Index B)
    (m' : Mem T B R) (a' : Ledger T B) : Prop where
  inv : Inv cfg m'.toHeap a'
  top : m'.head (.sized t c) = some i
  live : a'.live = a.live
  keeps : cfg.batchBump < 2 ^ 32 → ∀ s, a.Keeps a' s
  sizeClass : ∀ j, (a.live j).Nonempty → m'.sizeClass j = m.sizeClass j
  logged : Logged cfg t m m'

/-- The end of `allocate`: with a slab on the unsized stack, size it. -/
theorem emits_size [LawfulBracket B] {Q : Option (Index B) → Mem T B R → List (T × Event B) → Prop}
    {usedUp : Prop} {m₁ : Mem T B R} (evs : List (T × Event B))
    (a₁ : Ledger T B) (xs : List (Index B)) (inv : Inv cfg m₁.toHeap a₁) (hc : isZero c = false)
    (hl : a₁.chain (some (.unsized t)) = i :: xs) (hlive : a₁.live = a.live)
    (hex : cfg.batchBump < 2 ^ 32 → ∀ s, a.Keeps a₁ s)
    (hclass : ∀ j, (a.live j).Nonempty → m₁.sizeClass j = m.sizeClass j)
    (hacc : cfg.batchBump < 2 ^ 32 → Accounts cfg evs m.toHeap m₁.toHeap)
    (hQ : ∀ m' a' evs, Ready cfg t c m a i m' a' →
      (cfg.batchBump < 2 ^ 32 → Accounts cfg evs m.toHeap m'.toHeap) → Q (some i) m' evs) :
    wp Mem.handle (unsizedToSized t c)
      (fun sized m₂ => sized = true ∧
        wpo Mem.handle Act.events (do
          lift (.record t (.unsizedToSized c))
          validateOwned cfg t
          Stack.peek (.sized t c)) (fun r m' evs' => Q r m' (evs ++ evs'))
          (Fails usedUp (¬ (cfg.batchBump < 2 ^ 32 ∧ a.Exact))) m₂)
      (Fails usedUp (¬ (cfg.batchBump < 2 ^ 32 ∧ a.Exact))) m₁ := by
  have hi : i ∈ a₁.chain (some (.unsized t)) := by simp [hl]
  have hempty := ((inv.slab i).unsized t hi).1
  refine wp_unsizedToSized inv hc hl fun m' inv' hclass' hlog hacc' => ⟨rfl, ?_⟩
  have htop : m'.head (.sized t c) = some i := by
    rw [inv'.head_eq]
    simp [Ledger.move, Chains.move]
  rw [emits_record, emits_quiet by_validateOwned]
  refine wp_validateOwned inv' ?_ ?_
  · rw [emits_last (t := t) Stack.by_peek, Stack.wp_peek, htop]
    refine hQ m' _ _ ⟨inv', htop, hlive, hex, ?_, .inr ⟨_, hlog, rfl, hc⟩⟩ fun hsmall =>
      (hacc hsmall).trans hacc'
    intro j hj
    rw [hclass' j, hclass j hj]
    rintro rfl
    rw [← hlive, hempty] at hj
    exact absurd hj (by simp)
  · intro hdrift
    exact .inr ⟨rfl, fun h => hdrift (Ledger.Exact.at (h.2.keeps (hex h.1)) t)⟩

theorem emits_allocate [LawfulBracket B]
    {Q : Option (Index B) → Mem T B R → List (T × Event B) → Prop}
    (inv : Inv cfg m.toHeap a) (hc : isZero c = false) (hbatch : cfg.batchBump % 2 ^ 32 ≠ 0)
    (hQ : ∀ i m' a' evs, Ready cfg t c m a i m' a' →
      (cfg.batchBump < 2 ^ 32 → Accounts cfg evs m.toHeap m'.toHeap) → Q (some i) m' evs) :
    wpo Mem.handle Act.events (allocate cfg t c) Q
      (Fails (UsedUp cfg m.toHeap) (¬ (cfg.batchBump < 2 ^ 32 ∧ a.Exact))) m := by
  rw [allocate, if_neg (by simp [hc]), emits_quiet (by_unsizedToSized trivial trivial fun _ => trivial)]
  cases hh : m.head (.unsized t) with
  | some i =>
    obtain ⟨xs, hl⟩ := inv.cons_eq hh
    refine wp_mono (emits_size [] a xs inv hc hl rfl (fun _ _ h => h) (fun _ _ => rfl)
      (fun _ => .nil fun _ => rfl) (hQ i)) ?_ fun _ h => h
    rintro sized m₂ ⟨rfl, hm₂⟩
    exact hm₂
  | none =>
    have hempty : a.chain (some (.unsized t)) = [] := inv.chains.nil_eq (k := some _) hh
    refine wp_unsizedToSized_nil hh ?_
    rw [if_neg (by simp), emits_quiet (by_sharedPop fun _ _ => trivial)]
    cases hg : m.global.inner with
    | some i =>
      obtain ⟨xs, hl⟩ := inv.chains.cons_eq (k := none) hg
      have hi : i ∈ a.chain none := by simp [hl]
      refine wp_sharedPop_some hg fun m₁ w hw hm₁ => ?_
      have inv₁ := inv.globalToUnsized (t := t) hl hw
      have hacc : Accounts cfg [(t, .globalToUnsized)] m.toHeap _ :=
        inv.accounts_move hi (by simp) inv₁ rfl rfl (fun j hj => by simp [hj]) (fun _ _ => rfl) rfl
      rw [emits_record, emits_quiet Slab.by_own,
        Slab.wp_own fun hv => by rw [hm₁]; exact ((inv.slab i).global hi).2 hv,
        emits_quiet (Stack.by_push rfl), Stack.wp_push,
        emits_quiet (by_unsizedToSized trivial trivial fun _ => trivial)]
      refine wp_mono (emits_size (m := m) (a := a) [(t, .globalToUnsized)]
        (a.move i none (some (.unsized t))) [] ?_ hc ?_ rfl (fun _ _ h => h) ?_ (fun _ => ?_)
        (hQ i)) (fun _ _ h => h.2) fun _ h => h
      · rw [hm₁]
        exact inv₁
      · simp [Ledger.move, Chains.move, hempty]
      · intro j _
        rw [hm₁]
      · rw [hm₁]
        exact hacc
    | none =>
      refine wp_sharedPop_none hg fun m₁ hm₁ _ => ?_
      rw [emits_quiet (by_bumpRange trivial fun _ => trivial)]
      refine wp_bumpRange ?_ fun hfull => .inl ⟨rfl, by rwa [hm₁] at hfull⟩
      intro m₂ start e w hstart he hlt hw hm₂
      rw [hm₁] at hstart hm₂
      have hn : e.value - start.value = cfg.batchBump % 2 ^ 32 := by omega
      rw [emits_record, emits_quiet Slab.by_link, hn]
      refine wp_link ?_ ?_
      · intro j hj
        rw [hm₂]
        exact ((inv.slab j).fresh (by have := Index.mem_run.mp hj; omega)).2
      · rw [emits_quiet (Stack.by_set rfl), Stack.wp_set,
          emits_quiet (by_unsizedToSized trivial trivial fun _ => trivial)]
        have hmod := Nat.mod_le cfg.batchBump (2 ^ 32)
        have inv₁ := inv.bumpToUnsized hempty (t := t) (Nat.pos_of_ne_zero hbatch) hmod hstart
          (by omega) hw he
        obtain ⟨n, hn'⟩ : ∃ n, cfg.batchBump % 2 ^ 32 = n + 1 := ⟨_, (Nat.succ_pred hbatch).symm⟩
        refine wp_mono (emits_size (m := m) (a := a) (i := start) [(t, .bump)]
          (a.grow t start (cfg.batchBump % 2 ^ 32) cfg.batchBump) (start.succ.run n) ?_ hc ?_ rfl ?_ ?_
          (fun hsmall => ?_) (hQ start)) (fun _ _ h => h.2) fun _ h => h
        · rw [hm₂]
          exact inv₁
        · rw [hn']
          simp [Ledger.grow, Index.run]
        · intro hsmall s
          rw [Nat.mod_eq_of_lt hsmall]
          exact Ledger.keeps_grow
        · intro j _
          simp [hm₂, linked]
        · rw [hm₂]
          refine inv.accounts_grow hempty hstart inv₁ ?_ (fun j hj => if_neg hj) rfl
            (Nat.mod_eq_of_lt hsmall).symm
          show (w.inner.getD .min).value = _
          rw [hw]
          exact he

theorem emits_peek [LawfulBracket B]
    {Q : Option (Index B × Bit) → Mem T B R → List (T × Event B) → Prop}
    (inv : Inv cfg m.toHeap a) (hc : isZero c = false) (hbatch : cfg.batchBump % 2 ^ 32 ≠ 0)
    (hQ : ∀ i m' a' evs, Ready cfg t c m a i m' a' →
      (cfg.batchBump < 2 ^ 32 → Accounts cfg evs m.toHeap m'.toHeap) →
      Q (some (i, (m'.bits i).peekUnchecked)) m' evs) :
    wpo Mem.handle Act.events (peek cfg t c) Q
      (Fails (UsedUp cfg m.toHeap) (¬ (cfg.batchBump < 2 ^ 32 ∧ a.Exact))) m := by
  rw [peek, emits_quiet (t := t) Stack.by_peek, Stack.wp_peek]
  cases hh : m.head (.sized t c) with
  | some i =>
    exact hQ i m a [] ⟨inv, hh, rfl, fun _ _ h => h, fun _ _ => rfl, .inl ⟨rfl, rfl, rfl⟩⟩
      fun _ => .nil fun _ => rfl
  | none =>
    refine (wpo_bind _ _).mpr (emits_allocate inv hc hbatch fun i m' a' evs hready hacc => ?_)
    have hQ' := hQ i m' a' evs hready hacc
    rw [← List.append_nil evs] at hQ'
    exact hQ'

theorem wp_peek [LawfulBracket B] {Q : Option (Index B × Bit) → Mem T B R → Prop}
    (inv : Inv cfg m.toHeap a) (hc : isZero c = false) (hbatch : cfg.batchBump % 2 ^ 32 ≠ 0)
    (hQ : ∀ i m' a', Ready cfg t c m a i m' a' →
      Q (some (i, (m'.bits i).peekUnchecked)) m') :
    wp Mem.handle (peek cfg t c) Q
      (Fails (UsedUp cfg m.toHeap) (¬ (cfg.batchBump < 2 ^ 32 ∧ a.Exact))) m :=
  wpo_iff_wp.mp (emits_peek inv hc hbatch fun i m' a' _ hready _ => hQ i m' a' hready)

/-- The class of size zero has no blocks. -/
theorem emits_peek_zero {Q : Option (Index B × Bit) → Mem T B R → List (T × Event B) → Prop}
    (inv : Inv cfg m.toHeap a) (hc : isZero c = true) (hQ : Q none m []) :
    wpo Mem.handle Act.events (peek cfg t c) Q E m := by
  have hh : m.head (.sized t c) = none := by
    cases hh : m.head (.sized t c) with
    | none => rfl
    | some i =>
      obtain ⟨xs, hl⟩ := inv.cons_eq hh
      obtain ⟨hbusy, -, hclass, -⟩ := (inv.slab i).sized t c (by simp [hl])
      have := hbusy.isZero
      rw [hclass, hc] at this
      cases this
  rw [peek, emits_quiet (t := t) Stack.by_peek, Stack.wp_peek, hh]
  simp only [allocate, if_pos hc]
  exact hQ

/-! ### Handing out a block -/

omit [FromState B R] in
theorem emits_detach (ho : m.owner i = some t)
    (hQ : ∀ (m' : Mem T B R) (o : Option T) (evs : List (T × Event B)),
      o = none ∨ o = m.owner i →
      m'.toHeap = { m.toHeap with owner := update m.owner i o } → m'.log = m.log →
      (∀ r : Place B, (evs.map fun e => e.2.delta cfg r.gauge).sum =
        (if r = Place.off o c then (sizeSlab B : ℤ) else 0) -
          if r = .sized c then (sizeSlab B : ℤ) else 0) → Q () m' evs) :
    wpo Mem.handle Act.events (detach cfg t c i) Q E m := by
  rw [detach, emits_record, emits_quiet Detectable.by_load, wp_load, wpo_ite]
  by_cases hlt : (m.word (.remote i)).inner.free < count c
  · rw [if_pos hlt, emits_record, emits_quiet Slab.by_disown,
      Slab.wp_disown fun _ => by simpa using ho,
      emits_last_access (.flushCxl i) rfl, wp_flushCxl]
    refine hQ _ none _ (.inl rfl) (by simp) (by simp) fun r => ?_
    change _ = (if r = .disowned c then (sizeSlab B : ℤ) else 0) - _
    simp only [List.map_cons, List.map_nil, List.sum_cons, List.sum_nil, add_zero,
      Event.delta_of_move (e := .detach c) rfl, Event.delta_of_move (e := .disown c) rfl]
    ring
  · rw [if_neg hlt, wpo_pure]
    refine hQ _ (m.owner i) _ (.inr rfl) (by simp) (by simp) ?_
    rw [ho]
    exact Inv.sum_of_move rfl

/-- What `pop` leaves behind: block `k` of slab `i` is live. -/
structure Popped (cfg : Config) (t : T) (m : Mem T B R) (a : Ledger T B) (i : Index B) (k : ℕ)
    (m' : Mem T B R) (a' : Ledger T B) : Prop where
  inv : Inv cfg m'.toHeap a'
  fresh : k ∉ a.live i
  live : a'.live = (a.allot i k).live
  excess : a'.excess = a.excess
  sizeClass : m'.sizeClass = m.sizeClass
  log : m'.log = m.log
  head : m'.head (.unsized t) = m.head (.unsized t)
  len : m'.len (.unsized t) = m.len (.unsized t)

omit [FromState B R] in
theorem emits_pop [LawfulBracket B] {Q : Offset B → Mem T B R → List (T × Event B) → Prop}
    (inv : Inv cfg m.toHeap a) (htop : m.head (.sized t c) = some i)
    (hQ : ∀ m' a' evs, Popped cfg t m a i (m.bits i).peekUnchecked.toNat m' a' →
      Accounts cfg evs m.toHeap m'.toHeap →
      Q (Offset.fromBlock c i (m.bits i).peekUnchecked) m' evs) :
    wpo Mem.handle Act.events (pop cfg t c i (m.bits i).peekUnchecked) Q E m := by
  obtain ⟨xs, hl⟩ := inv.cons_eq htop
  have hi : i ∈ a.chain (some (.sized t c)) := by simp [hl]
  obtain ⟨hbusy, howner, hclass, hne⟩ := (inv.slab i).sized t c hi
  have hrows := LawfulBracket.rows_le (B := B)
  obtain ⟨hrow, hmem, -⟩ := BitSet.peek_spec hbusy.validate hne
  have hvalid := BitSet.validate_erased_peek hrows hbusy.validate hne
  have helems := BitSet.elems_erased (s := m.bits i) hrow
  have hfresh := Finset.disjoint_left.mp hbusy.disjoint hmem
  have hlen : 0 < m.len (.sized t c) := by
    rw [inv.lens, hl, List.length_cons]
    omega
  rw [pop, emits_record, emits_access (.loadBits i) rfl, wp_loadBits,
    emits_quiet (t := t) (by_ofExcept fun _ => trivial),
    BitSet.unset_peek_eq cfg.validate hrows hbusy.validate hne,
    wp_ofExcept_ok, emits_access (.storeBits i _) rfl, wp_storeBits, wpo_ite]
  by_cases hempty : ((m.bits i).erased (m.bits i).peekUnchecked).isEmpty = true
  · rw [if_pos hempty, emits_quiet (Stack.by_pop rfl)]
    refine (Stack.wp_pop (i := i) ?_ ?_).mpr ?_
    · exact htop
    · exact hlen
    rw [emits_quiet (t := t) by_unwrap, wp_unwrap_some]
    refine (wpo_bind _ _).mpr (emits_detach howner ?_)
    intro m' o evs ho hm' hlog hdelta
    have inv' := inv.takeLast hl hvalid hmem helems ((BitSet.isEmpty_iff hvalid).mp hempty) ho
    refine hQ m' ((a.allot i (m.bits i).peekUnchecked.toNat).drop i (some (.sized t c))) _
      ⟨?_, hfresh, rfl, rfl, ?_, hlog, ?_, ?_⟩ ?_
    · rw [hm']
      exact inv'
    · rw [hm']
    · rw [hm']
      simp
    · rw [hm']
      simp
    · rw [hm', List.append_nil]
      refine .cons (fun _ => Event.delta_allocate) (inv.accounts_drop hi inv' rfl rfl
        (fun j hj => by simp [hj]) (fun _ _ => rfl) fun r => ?_)
      have hoff : Place.off (update m.owner i o i) (m.sizeClass i) = Place.off o c := by
        rw [update_self, hclass]
      rw [hdelta r, ← hoff]
      rfl
  · rw [if_neg hempty]
    have hne' : ((m.bits i).erased (m.bits i).peekUnchecked).elems.Nonempty := by
      rw [Finset.nonempty_iff_ne_empty, ne_eq, ← BitSet.isEmpty_iff hvalid]
      exact hempty
    exact hQ _ (a.allot i (m.bits i).peekUnchecked.toNat) _
      ⟨inv.take hi hvalid hmem helems hne', hfresh, rfl, rfl, rfl, rfl, rfl, rfl⟩
      (.cons (fun _ => Event.delta_allocate) (.nil fun p => by cases p <;> rfl))

omit [FromState B R] in
theorem wp_pop [LawfulBracket B] {Q : Offset B → Mem T B R → Prop}
    (inv : Inv cfg m.toHeap a) (htop : m.head (.sized t c) = some i)
    (hQ : ∀ m' a', Popped cfg t m a i (m.bits i).peekUnchecked.toNat m' a' →
      Q (Offset.fromBlock c i (m.bits i).peekUnchecked) m') :
    wp Mem.handle (pop cfg t c i (m.bits i).peekUnchecked) Q E m :=
  wpo_iff_wp.mp (emits_pop inv htop fun m' a' _ hpop _ => hQ m' a' hpop)

/-! ### Giving up a slab -/

omit [FromState B R] in
/-- The walk of `sized_to_unsized` finds the slab in front of `i`. -/
theorem wp_findPrev {Q : Index B → Mem T B R → Prop} {pre post : List (Index B)}
    {p walk : Index B} {fuel : ℕ} (hs : Seg m.next (some walk) (pre ++ p :: i :: post) none)
    (hfuel : pre.length < fuel) (hQ : Q p m) : wp Mem.handle (findPrev i fuel walk) Q E m := by
  induction pre generalizing walk fuel with
  | nil =>
    obtain ⟨fuel, rfl⟩ : ∃ f, fuel = f + 1 := ⟨fuel - 1, by simp at hfuel; omega⟩
    obtain ⟨hw, hi, -⟩ := hs
    obtain rfl := Option.some.inj hw
    simp only [findPrev, wp_bind, wp_loadNext, hi, if_true]
    exact hQ
  | cons w pre ih =>
    obtain ⟨fuel, rfl⟩ : ∃ f, fuel = f + 1 := ⟨fuel - 1, by simp at hfuel; omega⟩
    have hnd := hs.nodup
    rw [List.cons_append, Lib.seg_cons] at hs
    obtain ⟨hw, hs⟩ := hs
    obtain rfl := Option.some.inj hw
    obtain ⟨w', hw'⟩ : ∃ w', (pre ++ p :: i :: post).head? = some w' := by
      cases pre with
      | nil => exact ⟨p, rfl⟩
      | cons w' pre => exact ⟨w', rfl⟩
    have hnext : m.next walk = some w' := by rw [hs.head_eq, hw']
    have hne : w' ≠ i := by
      rintro rfl
      cases pre with
      | nil =>
        obtain rfl : p = w' := by simpa using hw'
        simp at hnd
      | cons w'' pre =>
        obtain rfl : w'' = w' := by simpa using hw'
        simp at hnd
    simp only [findPrev, wp_bind, wp_loadNext, hnext, if_neg hne]
    rw [hnext] at hs
    exact ih hs (by simp at hfuel; omega)

omit [FromState B R] in
theorem wp_sizedToUnsized {Q : Unit → Mem T B R → Prop} (inv : Inv cfg m.toHeap a)
    (hi : i ∈ a.chain (some (.sized t c))) (hlive : a.live i = ∅)
    (hQ : ∀ (m' : Mem T B R) (a' : Ledger T B), Inv cfg m'.toHeap a' → a'.live = a.live →
      (∀ s, m.head (.sized t c) = some i ∨ s ≠ .sized t c → a.Keeps a' s) →
      m'.sizeClass = m.sizeClass →
      m'.log = m.log → (∃ xs, a'.chain (some (.unsized t)) = i :: xs) →
      Accounts cfg [(t, .sizedToUnsized c)] m.toHeap m'.toHeap → Q () m') :
    wp Mem.handle (sizedToUnsized t c i) Q E m := by
  obtain ⟨pre, post, hl⟩ := List.append_of_mem hi
  have hs : (.sized t c : StackId T B) ≠ .unsized t := by simp
  have hpush : ∃ xs, (a.move i (some (.sized t c)) (some (.unsized t))).chain (some (.unsized t)) =
      i :: xs := ⟨_, by simp [Ledger.move, Chains.move]; rfl⟩
  have hloc : (some (.sized t c) : Loc T B) ≠ some (.unsized t) := by simp
  rcases List.eq_nil_or_concat pre with rfl | ⟨pre, p, rfl⟩
  · have hh : m.head (.sized t c) = some i := by rw [inv.head_eq, hl]; rfl
    have hlen : 1 ≤ m.len (.sized t c) := by
      rw [inv.lens, hl, List.nil_append, List.length_cons]
      omega
    simp only [sizedToUnsized, wp_bind, wp_loadNext, Stack.wp_peek, hh, wp_unwrap_some, if_true,
      wp_loadLen]
    rw [wp_checkedSub hlen]
    simp only [Stack.wp_set, Stack.wp_push, update_of_ne hs.symm]
    have inv' := inv.sizedToUnsized_head hl hlive
    exact hQ _ _ inv' rfl (fun _ _ h => h) rfl rfl hpush
      (inv.accounts_move hi hloc inv' rfl rfl (fun _ _ => rfl) (fun _ _ => rfl) rfl)
  · have hl : a.chain (some (.sized t c)) = pre ++ p :: i :: post := by rw [hl]; simp
    have hseg := inv.chains.seg (some (.sized t c))
    have hnd := inv.chains.nodup (some (.sized t c))
    have hbound := inv.length_lt (some (.sized t c))
    obtain ⟨walk, hwalk⟩ : ∃ w, m.head (.sized t c) = some w := by
      rw [inv.head_eq, hl]
      cases pre with
      | nil => exact ⟨p, rfl⟩
      | cons w pre => exact ⟨w, rfl⟩
    have hne : walk ≠ i := by
      rintro rfl
      obtain ⟨xs, hl'⟩ := inv.cons_eq hwalk
      rw [hl] at hl' hnd
      cases pre with
      | nil =>
        obtain ⟨rfl, -⟩ : p = walk ∧ _ := by simpa using hl'
        simp at hnd
      | cons w pre =>
        obtain ⟨rfl, -⟩ : w = walk ∧ _ := by simpa using hl'
        simp at hnd
    rw [hl] at hseg hbound
    change Seg m.next (m.head (.sized t c)) _ none at hseg
    rw [hwalk] at hseg
    simp only [sizedToUnsized, wp_bind, wp_loadNext, Stack.wp_peek, hwalk, wp_unwrap_some,
      if_neg hne]
    refine wp_findPrev hseg ?_ ?_
    · simp only [List.length_append, List.length_cons] at hbound
      rw [walkFuel]
      omega
    · simp only [wp_storeNext, Stack.wp_push]
      have inv' := inv.sizedToUnsized_mid hl hlive
      refine hQ _ _ inv' rfl ?_ rfl rfl hpush
        (inv.accounts_move hi hloc inv' rfl rfl (fun _ _ => rfl) (fun _ _ => rfl) rfl)
      intro s hs h
      have hs := hs.resolve_left fun hh => hne (Option.some.inj (hwalk.symm.trans hh))
      simpa [Ledger.drift, Ledger.move, hs] using h

variable {head : Option (Index B)}

omit [FromState B R] in
/-- The batch is a first part of the chain; in builds that check, it is disowned on the
way. -/
theorem wp_takeBatch {Q : List (Index B) → Mem T B R → Prop}
    (hs : Seg m.next head xs none) (ho : ∀ j ∈ xs, m.owner j = some t)
    (hQ : ∀ owner : Index B → Option T, (∀ j, j ∉ xs.take n → owner j = m.owner j) →
      (∀ j ∈ xs.take n, owner j = none ∨ owner j = m.owner j) →
      (cfg.validate = true → ∀ j ∈ xs.take n, owner j = none) →
      Q (xs.take n) { m with owner := owner }) :
    wp Mem.handle (takeBatch cfg t n head) Q E m := by
  induction n generalizing m head xs Q with
  | zero => exact hQ m.owner (by simp) (by simp) (by simp)
  | succ n ih =>
    cases xs with
    | nil =>
      obtain rfl : head = none := hs
      exact hQ m.owner (by simp) (by simp) (by simp)
    | cons i xs =>
      have hi : i ∉ xs := (List.nodup_cons.mp hs.nodup).1
      have howner := ho i (by simp)
      obtain ⟨rfl, hs⟩ := hs
      simp only [takeBatch, wp_bind, wp_loadNext]
      cases hv : cfg.validate with
      | false =>
        simp only [Bool.false_eq_true, if_false, wp_bind, wp_pure]
        refine ih hs (fun j hj => ho j (by simp [hj])) ?_
        intro owner h1 h2 _
        refine hQ owner ?_ ?_ (by simp [hv])
        · intro j hj
          rw [List.take_succ_cons, List.mem_cons, not_or] at hj
          exact h1 j hj.2
        · intro j hj
          rw [List.take_succ_cons, List.mem_cons] at hj
          rcases hj with rfl | hj
          · exact .inr (h1 j fun hin => hi (List.mem_of_mem_take hin))
          · exact h2 j hj
      | true =>
        simp only [if_true, wp_bind, wp_pure]
        rw [Slab.wp_disown fun _ => howner]
        have hoff : ∀ j, j ≠ i → update m.owner i none j = m.owner j :=
          fun j hj => update_of_ne hj _ _
        refine ih hs ?_ ?_
        · intro j hj
          have hne : j ≠ i := fun e => hi (e ▸ hj)
          simpa [hne] using ho j (by simp [hj])
        · intro owner h1 h2 h3
          refine hQ owner ?_ ?_ ?_
          · intro j hj
            rw [List.take_succ_cons, List.mem_cons, not_or] at hj
            rw [h1 j hj.2]
            exact hoff j hj.1
          · intro j hj
            rw [List.take_succ_cons, List.mem_cons] at hj
            rcases hj with rfl | hj
            · exact .inl (by simpa using h1 j fun hin => hi (List.mem_of_mem_take hin))
            · exact .inl (h3 hv j hj)
          · intro _ j hj
            rw [List.take_succ_cons, List.mem_cons] at hj
            rcases hj with rfl | hj
            · simpa using h1 j fun hin => hi (List.mem_of_mem_take hin)
            · exact h3 hv j hj

omit [FromState B R] in
@[simp] theorem wp_flushBatch {Q : Unit → Mem T B R → Prop} :
    wp Mem.handle (flushBatch n head) Q E m ↔ Q () m := by
  induction n generalizing head with
  | zero => exact Iff.rfl
  | succ n ih =>
    cases head with
    | none => exact Iff.rfl
    | some i =>
      simp only [flushBatch, wp_bind, wp_loadNext, wp_flushCxl]
      exact ih

/-- `unsized_to_global` on a stack that is not empty.  Below the limit it does nothing. -/
theorem emits_unsizedToGlobal
    (inv : Inv cfg m.toHeap a)
    (hl : a.chain (some (.unsized t)) = i :: xs) (hpos : 1 ≤ cfg.batchGlobal)
    (hle : cfg.batchGlobal ≤ cfg.cacheLocal + 1)
    (hsmall : m.len (.unsized t) ≤ cfg.cacheLocal → Q () m [])
    (hQ : ∀ (m' : Mem T B R) (a' : Ledger T B) (v : Version) (evs : List (T × Event B)),
      Inv cfg m'.toHeap a' →
      a'.live = a.live → (∀ s, a.Keeps a' s) → m'.sizeClass = m.sizeClass →
      m'.log t = some (FromState.fromState (.unsizedToGlobal i v)) →
      m'.head (.unsized t) ≠ some i →
      (a.excess (.unsized t) = 0 → Accounts cfg evs m.toHeap m'.toHeap) → Q () m' evs) :
    wpo Mem.handle Act.events (unsizedToGlobal cfg t) Q E m := by
  have hh : m.head (.unsized t) = some i := by rw [inv.head_eq, hl]; rfl
  have hseg := inv.chains.seg (some (.unsized t))
  have howner : ∀ j ∈ a.chain (some (.unsized t)), m.owner j = some t :=
    fun j hj => ((inv.slab j).unsized t hj).2
  rw [unsizedToGlobal, emits_access (.loadLen _) rfl, wp_loadLen, wpo_ite]
  by_cases hcount : m.len (.unsized t) ≤ cfg.cacheLocal
  · rw [if_pos hcount]
    exact hsmall hcount
  · rw [if_neg hcount, emits_record, emits_quiet (t := t) Stack.by_peek, Stack.wp_peek,
      emits_quiet by_takeBatch]
    refine wp_takeBatch hseg howner ?_
    intro owner h1 h2 h3
    obtain ⟨n, hn⟩ : ∃ n, cfg.batchGlobal = n + 1 := ⟨cfg.batchGlobal - 1, by omega⟩
    have hsplit := List.take_append_drop cfg.batchGlobal (a.chain (some (.unsized t)))
    generalize hpost : (a.chain (some (.unsized t))).drop cfg.batchGlobal = post at hsplit
    have hfirst : (a.chain (some (.unsized t))).take cfg.batchGlobal = i :: xs.take n := by
      rw [hl, hn, List.take_succ_cons]
    rw [hfirst] at hsplit h1 h2 h3 ⊢
    obtain ⟨pre, tail, htaken⟩ : ∃ pre tail, i :: xs.take n = pre ++ [tail] := by
      rcases List.eq_nil_or_concat (i :: xs.take n) with h | ⟨pre, tail, h⟩
      · cases h
      · exact ⟨pre, tail, by rw [h, List.concat_eq_append]⟩
    have htail : (i :: xs.take n).tail.getLast?.getD i = tail := by
      have hlast : (i :: xs.take n).getLast? = some tail := by rw [htaken]; simp
      rw [List.getLast?_cons] at hlast
      exact Option.some.inj hlast
    have hchain : a.chain (some (.unsized t)) = pre ++ [tail] ++ post := by rw [← htaken, hsplit]
    have hnext : m.next tail = post.head? := by
      rw [hchain, List.append_assoc, List.singleton_append] at hseg
      exact hseg.next_eq
    have hlens := inv.lens (.unsized t)
    have hlenpost : post.length = (a.chain (some (.unsized t))).length - cfg.batchGlobal := by
      rw [← hpost, List.length_drop]
    have hnotin : i ∉ post := by
      have hnd := inv.chains.nodup (some (.unsized t))
      rw [← hsplit] at hnd
      exact fun hi => List.disjoint_of_nodup_append hnd (by simp) hi
    -- what follows the batch records nothing
    refine (emits_last (t := t) ?_).mpr ?_
    · exact .bind by_unwrap fun _ => .bind (.lift trivial) fun _ =>
        .bind (by_storeLog trivial) fun _ => .bind by_checkedSub fun _ => .bind (Stack.by_set rfl)
        fun _ => .bind by_flushBatch fun _ => Global.by_push fun _ => trivial
    simp only [List.head?_cons, wp_bind, wp_unwrap_some, htail, wp_loadNext, hnext, log, wp_storeLog]
    rw [wp_checkedSub (by omega)]
    simp only [Stack.wp_set, wp_flushBatch, Global.push, wp_bind]
    refine wp_update ?_
    simp only [wp_bind, wp_storeNext, wp_pure, Heap.word, Mem.announced_toHeap, true_and,
      wp_unwrap_some]
    rw [htaken] at h1 h2 h3
    have inv' := inv.unsizedToGlobal (t := t) hchain (m.len (.unsized t) - cfg.batchGlobal)
      (w := { id := some t, version := (m.help t t).next, inner := some i }) (by omega) hh.symm
      h1 h2 h3
    refine hQ _ _ (m.help t t).next _ inv' rfl ?_ rfl (by simp) ?_ fun hexact => ?_
    · exact fun s => Ledger.keeps_share fun hex => by omega
    · show update m.head (.unsized t) post.head? (.unsized t) ≠ some i
      rw [update_self]
      exact fun h => hnotin (List.mem_of_mem_head? h)
    · refine inv.accounts_share hchain inv' rfl h1 rfl ?_
      rw [← htaken, ← hfirst, List.length_take]
      omega

/-! ### Taking a block back -/

/-- What `free` leaves behind: block `k` of slab `i` is no longer live. -/
structure Freed (cfg : Config) (t : T) (m : Mem T B R) (a : Ledger T B) (i : Index B) (k : ℕ)
    (m' : Mem T B R) (a' : Ledger T B) : Prop where
  inv : Inv cfg m'.toHeap a'
  live : a'.live = (a.release i k).live
  keeps : ∀ s, (Tidy t m.toHeap i ∨ ∃ u, s = .unsized u) → a.Keeps a' s
  sizeClass : m'.sizeClass = m.sizeClass
  logged : Logged cfg t m m'

variable [LawfulBracket B] {k : ℕ}

/-- Whoever frees the last block of a slab it does not own finds it disowned. -/
def ClaimsDisowned (t : T) (h : Heap T B) (i : Index B) : Prop :=
  (h.remote i).inner.free = 1 → h.owner i = some t ∨ h.owner i = none

instance (t : T) (h : Heap T B) (i : Index B) : Decidable (h.ClaimsDisowned t i) :=
  inferInstanceAs (Decidable (_ → _ ∨ _))

theorem emits_claim {w : Word T Remote} {m₁ : Mem T B R} (inv : Inv cfg m.toHeap a)
    (hk : k ∈ a.live i) (hc : m.sizeClass i = c) (hone : (m.remote i).inner.free = 1)
    (hm₁ : m₁.toHeap = { m.toHeap with remote := update m.remote i w })
    {v : Version} (hlog : m₁.log t = some (FromState.fromState (.remote i v true)))
    (hpos : 1 ≤ cfg.batchGlobal) (hle : cfg.batchGlobal ≤ cfg.cacheLocal + 1)
    (hQ : ∀ m' a' evs, Freed cfg t m a i k m' a' →
      (a.excess (.unsized t) = 0 → m.owner i = none → Accounts cfg evs m.toHeap m'.toHeap) →
      Q () m' evs) (hE : ¬ a.Exact → E .invalidOwned) :
    wpo Mem.handle Act.events (claim cfg t c i) Q E m₁ := by
  have inv' := inv.claim (t := t) (w := w) hk hone
  have hacc : m.owner i = none → Accounts cfg [(t, .claim c)] m.toHeap _ := fun hown =>
    inv.accounts_push (inv.busy_of_live hk).2.1 (inv.off_of_last hk hone) inv' rfl rfl
      (fun j hj => by simp [hj]) (fun _ _ => rfl) (by rw [hown, hc]; rfl)
  rw [claim, emits_record, emits_quiet Slab.by_steal, Slab.wp_steal,
    emits_quiet (Stack.by_push rfl), Stack.wp_push, emits_quiet by_validateOwned]
  simp only [hm₁]
  refine wp_validateOwned (a := (a.release i k).push i (some (.unsized t))) inv' ?_ ?_
  · have hl : ((a.release i k).push i (some (.unsized t))).chain (some (.unsized t)) =
        i :: a.chain (some (.unsized t)) := by simp [Ledger.push, Ledger.release]
    refine emits_unsizedToGlobal inv' hl hpos hle ?_ ?_
    · intro hlen
      refine hQ _ _ _ ⟨inv', rfl, fun _ _ h => h, rfl, .inr ⟨_, hlog, ?_⟩⟩ fun _ => hacc
      exact fun _ => ⟨by simp, hlen⟩
    · intro m' a' v' evs inv'' hlive hex hclass hlog' hhead hacc'
      exact hQ m' a' _ ⟨inv'', hlive, fun s _ => hex s, hclass, .inr ⟨_, hlog', hhead⟩⟩
        fun hexact hown => (hacc hown).trans (hacc' hexact)
  · exact fun hdrift => hE fun hex => hdrift (Ledger.Exact.at hex t)

theorem emits_freeRemote
    (inv : Inv cfg m.toHeap a) (hk : k ∈ a.live i)
    (hpos : 1 ≤ cfg.batchGlobal) (hle : cfg.batchGlobal ≤ cfg.cacheLocal + 1)
    (hQ : ∀ m' a' evs, Freed cfg t m a i k m' a' →
      (a.excess (.unsized t) = 0 → ((m.remote i).inner.free = 1 → m.owner i = none) →
        Accounts cfg evs m.toHeap m'.toHeap) → Q () m' evs) (hE : ¬ a.Exact → E .invalidOwned) :
    wpo Mem.handle Act.events (freeRemote cfg t i) Q E m := by
  obtain ⟨hbusy, -, -⟩ := inv.busy_of_live hk
  have hcard := Finset.card_pos.mpr ⟨k, hk⟩
  have hfree : 1 ≤ (m.remote i).inner.free := by
    have := hbusy.counter
    omega
  rw [freeRemote, emits_access (.loadClass i) rfl, wp_loadClass, emits_record]
  rw [emits_quiet (by_countdown trivial fun _ => trivial)]
  refine wp_update ?_
  have hzero : ((m.remote i).inner.free == 0) = false := by
    rw [beq_eq_false_iff_ne]
    omega
  simp only [Heap.word, hzero, Bool.and_false, Bool.false_eq_true, if_false, wp_bind]
  rw [wp_checkedSub hfree]
  simp only [wp_pure, Mem.announced_toHeap, true_and, setWord]
  rw [emits_quiet (t := t) by_unwrap, wp_unwrap_some, wpo_ite]
  by_cases hone : (m.remote i).inner.free = 1
  · rw [if_pos hone]
    refine emits_claim inv hk rfl hone rfl (v := (m.help t t).next) ?_ hpos hle ?_ hE
    · simp [hone]
    · intro m' a' evs hfreed hacc
      exact hQ m' a' _ hfreed fun hexact hown =>
        .cons (fun _ => Event.delta_free) (hacc hexact (hown hone))
  · rw [if_neg hone]
    have inv' := inv.remoteFree hk (w := ⟨some t, (m.help t t).next,
      ⟨(m.remote i).inner.free - 1⟩⟩) (Nat.sub_add_cancel hfree) (by simp; omega)
    refine hQ _ _ _ ⟨inv', rfl, fun _ _ h => h, rfl, .inr ⟨_, by simp; rfl, ?_⟩⟩ fun _ _ =>
      .cons (fun _ => Event.delta_free) (.nil fun p => by cases p <;> rfl)
    simp [RecordOk, hone]

/-- The end of a local free, once the block is back in the bitset of slab `i`: a slab
that is complete returns to the unsized stack. -/
theorem emits_complete
    (m₁ : Mem T B R) (evs : List (T × Event B)) {a₁ : Ledger T B} {b : Bit} (inv : Inv cfg m₁.toHeap a₁)
    (hi : i ∈ a₁.chain (some (.sized t c))) (hlive : a₁.live = (a.release i k).live)
    (hex : ∀ s, a.Keeps a₁ s) (hclass : m₁.sizeClass = m.sizeClass)
    (hlog : m₁.log t = some (FromState.fromState (.applicationToSized i b)))
    (htidy : Tidy t m.toHeap i → (m₁.bits i).len = count c → m₁.head (.sized t c) = some i)
    (hacc : Accounts cfg evs m.toHeap m₁.toHeap)
    (hpos : 1 ≤ cfg.batchGlobal) (hle : cfg.batchGlobal ≤ cfg.cacheLocal + 1)
    (hQ : ∀ m' a' evs, Freed cfg t m a i k m' a' →
      (a.excess (.unsized t) = 0 → Accounts cfg evs m.toHeap m'.toHeap) → Q () m' evs) :
    wpo Mem.handle Act.events
      (if (m₁.bits i).len < count c then pure ()
      else do
        sizedToUnsized t c i
        validateOwned cfg t
        lift (.record t (.sizedToUnsized c))
        unsizedToGlobal cfg t)
      (fun r m' evs' => Q r m' (evs ++ evs'))
      (Fails False (¬ (Tidy t m.toHeap i ∧ a.Exact))) m₁ := by
  obtain ⟨hbusy, -, hc, -⟩ := (inv.slab i).sized t c hi
  rw [wpo_ite]
  by_cases hlt : (m₁.bits i).len < count c
  · rw [if_pos hlt]
    refine hQ m₁ a₁ _ ⟨inv, hlive, fun s _ => hex s, hclass, .inr ⟨_, hlog, trivial⟩⟩ fun _ => ?_
    rwa [List.append_nil]
  · rw [if_neg hlt]
    -- every block is in the bitset, so none is live
    have hsub : (m₁.bits i).elems ⊆ Finset.range (count c) := fun j hj => by
      rw [Finset.mem_range, ← hc]
      exact hbusy.elems_lt j hj
    have hcard := Finset.card_le_card hsub
    rw [Finset.card_range, ← BitSet.len_eq_card hbusy.validate] at hcard
    have hfull : (m₁.bits i).elems = Finset.range (count c) := by
      refine Finset.eq_of_subset_of_card_le hsub ?_
      rw [Finset.card_range, ← BitSet.len_eq_card hbusy.validate]
      omega
    have hnone : a₁.live i = ∅ := by
      rw [Finset.eq_empty_iff_forall_notMem]
      intro j hj
      have hlt := hbusy.live_lt j hj
      rw [hc] at hlt
      refine Finset.disjoint_right.mp hbusy.disjoint hj ?_
      rw [hfull, Finset.mem_range]
      exact hlt
    rw [emits_quiet (by_sizedToUnsized trivial)]
    refine wp_sizedToUnsized inv hi hnone ?_
    intro m₂ a₂ inv₂ hlive₂ hex₂ hclass₂ hlog₂ ⟨xs, hl⟩ hacc₂
    have hkeeps : ∀ s, (Tidy t m.toHeap i ∨ ∃ u, s = .unsized u) → a.Keeps a₂ s := by
      intro s hs h
      refine hex₂ s ?_ (hex s h)
      rcases hs with ht | ⟨u, rfl⟩
      · exact .inl (htidy ht (by omega))
      · exact .inr (by simp)
    rw [emits_quiet by_validateOwned]
    refine wp_validateOwned inv₂ ?_ ?_
    · rw [emits_record]
      refine emits_unsizedToGlobal inv₂ hl hpos hle ?_ ?_
      · intro _
        exact hQ m₂ a₂ _ ⟨inv₂, hlive₂.trans hlive, hkeeps, hclass₂.trans hclass,
          .inr ⟨_, (congrFun hlog₂ t).trans hlog, trivial⟩⟩ fun _ => hacc.trans hacc₂
      · intro m₃ a₃ v evs' inv₃ hlive₃ hex₃ hclass₃ hlog₃ hhead hacc₃
        exact hQ m₃ a₃ _ ⟨inv₃, hlive₃.trans (hlive₂.trans hlive),
          fun s hs h => hex₃ s (hkeeps s hs h), hclass₃.trans (hclass₂.trans hclass),
          .inr ⟨_, hlog₃, hhead⟩⟩
          fun hexact => hacc.trans (hacc₂.trans (hacc₃ (hkeeps _ (.inr ⟨t, rfl⟩) hexact)))
    · exact fun hdrift => .inr ⟨rfl, fun h => hdrift
        (Ledger.Exact.at (h.2.keeps fun s => hkeeps s (.inl h.1)) t)⟩

theorem emits_free {b : Bit}
    (inv : Inv cfg m.toHeap a) (hk : b.toNat ∈ a.live i)
    (hpos : 1 ≤ cfg.batchGlobal) (hle : cfg.batchGlobal ≤ cfg.cacheLocal + 1)
    (hQ : ∀ m' a' evs, Freed cfg t m a i b.toNat m' a' →
      (a.excess (.unsized t) = 0 → ClaimsDisowned t m.toHeap i →
        Accounts cfg evs m.toHeap m'.toHeap) → Q () m' evs) :
    wpo Mem.handle Act.events (free cfg t (Offset.fromBlock (m.sizeClass i) i b)) Q
      (Fails False (¬ (Tidy t m.toHeap i ∧ a.Exact))) m := by
  obtain ⟨hbusy, hb, hplace⟩ := inv.busy_of_live hk
  have hbound := inv.bound
  have hlt := hbusy.live_lt _ hk
  rw [free, Offset.intoIndex_fromBlock (by omega) hbusy.isZero hlt]
  rw [emits_quiet (t := t) by_unwrap, wp_unwrap_some, emits_access (.loadOwner i) rfl, wp_loadOwner,
    wpo_ite]
  by_cases howner : m.owner i = some t
  · have hnew := Finset.disjoint_right.mp hbusy.disjoint hk
    have hrow := Bit.row_lt hlt
    have hvalid := BitSet.validate_inserted hbusy.validate hrow hnew
    have helems := BitSet.elems_inserted (s := m.bits i) hrow
    have hlen : ((m.bits i).inserted b).len = (m.bits i).len + 1 := rfl
    rw [if_neg (by simpa using howner), emits_access (.loadClass i) rfl, wp_loadClass]
    simp only [Offset.intoBlock_fromBlock hbusy.isZero hlt]
    rw [wpo_bind, wpo_pure, emits_record, log, emits_access (.storeLog t _) rfl]
    simp only [wp_storeLog]
    rw [emits_access (.loadBits i) rfl]
    simp only [wp_loadBits]
    rw [emits_quiet (t := t) (by_ofExcept fun _ => trivial),
      BitSet.set_eq cfg.validate hbusy.validate hrow hnew,
      wp_ofExcept_ok, emits_access (.storeBits i _) rfl]
    simp only [wp_storeBits]
    rw [wpo_ite]
    rcases hplace with ⟨t', c', hi⟩ | hout
    · -- on a sized stack: it has a free block already
      obtain ⟨-, ho, hc, hne⟩ := (inv.slab i).sized t' c' hi
      obtain rfl : t' = t := by simpa using ho.symm.trans howner
      subst hc
      have hpos' : 0 < (m.bits i).len := by
        rw [BitSet.len_eq_card hbusy.validate]
        exact Finset.card_pos.mpr hne
      rw [if_neg (by omega)]
      have inv₁ := inv.put hi hk hvalid helems
      have hcomplete := emits_complete (m := m) (k := b.toNat) (b := b) (Q := Q)
        { m with
          bits := update m.bits i ((m.bits i).inserted b)
          log := update m.log t' (some (FromState.fromState (.applicationToSized i b))) }
        [(t', .free (size (m.sizeClass i)))]
        inv₁ hi rfl (fun _ h => h) rfl (by simp) ?_
        (.cons (fun _ => Event.delta_free) (.nil fun p => by cases p <;> rfl)) hpos hle
        fun m' a' evs hfreed hacc => hQ m' a' evs hfreed fun hexact _ => hacc hexact
      · simpa using hcomplete
      · intro htidy hfull
        simp only [update_self, hlen] at hfull
        exact (htidy howner hfull).resolve_left (by omega)
    · -- detached: this is its first free block
      obtain ⟨-, hempty, -⟩ := (inv.slab i).detached hb hout
      have hzero : (m.bits i).len = 0 := by
        rw [BitSet.len_eq_card hbusy.validate, hempty, Finset.card_empty]
      rw [if_pos (by omega)]
      have inv₁ := inv.putAttach hout howner hk hvalid helems rfl
      have hacc : Accounts cfg [(t, .attach (m.sizeClass i))] m.toHeap _ :=
        inv.accounts_push hb hout inv₁ rfl rfl (fun _ _ => rfl) (fun _ _ => rfl) (by rw [howner]; rfl)
      rw [attach, wpo_bind, emits_record, emits_last (Stack.by_push rfl), Stack.wp_push]
      have hcomplete := emits_complete (m := m) (c := m.sizeClass i) (k := b.toNat) (b := b) (Q := Q)
        { m with
          bits := update m.bits i ((m.bits i).inserted b)
          next := update m.next i (m.head (.sized t (m.sizeClass i)))
          head := update m.head (.sized t (m.sizeClass i)) (some i)
          len := update m.len (.sized t (m.sizeClass i)) (m.len (.sized t (m.sizeClass i)) + 1)
          log := update m.log t (some (FromState.fromState (.applicationToSized i b))) }
        [(t, .free (size (m.sizeClass i))), (t, .attach (m.sizeClass i))]
        inv₁ ?_ rfl (fun _ h => h) rfl (by simp) ?_ (.cons (fun _ => Event.delta_free) hacc) hpos hle
        fun m' a' evs hfreed hacc => hQ m' a' evs hfreed fun hexact _ => hacc hexact
      · simpa using hcomplete
      · simp [Ledger.push]
      · intro _ _
        simp
  · rw [if_pos howner]
    refine emits_freeRemote inv hk hpos hle ?_ ?_
    · intro m' a' evs hfreed hacc
      exact hQ m' a' evs hfreed fun hexact hclaim =>
        hacc hexact fun hone => (hclaim hone).resolve_left howner
    · exact fun hex => .inr ⟨rfl, fun h => hex h.2⟩

end Heap

end Cxlalloc
