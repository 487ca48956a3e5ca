/-
The hazards of one thread.

Run alone, `insert`, `swap_remove` and `contains` do to the cells what the model of the huge
heap does to its list of hazards (`Lists`).

Run among scans, they do not: an offset that stays in the set is missed by a scan that has
passed the cell it is moved to.  If that never happens (`NotPassed`), a scan for an offset that
is kept always has a copy of it ahead: the owner overwrites a copy only with the offset it
removes in it, or clears it after the move.
-/
import Cxlalloc.Hazards
import Cxlalloc.Proofs.Huge

namespace Cxlalloc

open Lib
open Lib.Prog
open Lib.Protocol
open Function
open Relation

namespace Scanned

variable {T β : Type} {validate : Bool} {owner t u : T} {m m' : Scanned T}

/-! ### The protocol -/

/-- What is held stands in a cell, and a scan that has missed its offset was about one that
was removed meanwhile. -/
structure Present (m : Scanned T) : Prop where
  short : m.len ≤ hazardsLen
  held : ∀ x, m.held x = true → ∃ j < m.len, m.hazard j = some x
  kept : ∀ u x, m.asked u = some x → m.kept u = true → m.held x = true
  result : ∀ u, m.kept u = true → m.result u ≠ some false

/-- Nothing of the owner's has changed. -/
structure Own (m m' : Scanned T) : Prop where
  toHazards : m'.toHazards = m.toHazards
  held : m'.held = m.held
  inserting : m'.inserting = m.inserting

/-- A copy of `x` is ahead of the scan of `t`, among the first `n` cells. -/
def Ahead (t : T) (x n : ℕ) (m : Scanned T) : Prop :=
  ∃ j, m.next t ≤ j ∧ j < n ∧ j < m.len ∧ m.hazard j = some x

/-- What the others leave of the scan of `t`. -/
structure Spared (t : T) (m m' : Scanned T) : Prop where
  asked : m'.asked t = m.asked t
  kept : m'.kept t = true → m.kept t = true
  next : m'.next t = m.next t
  result : m'.result t = m.result t
  ahead : ∀ x n, m.asked t = some x → m'.kept t = true → m.result t = none →
    m.Ahead t x n → m'.Ahead t x n

/-- No scan gets past a cell that holds its offset. -/
def Halts (m m' : Scanned T) : Prop :=
  ∀ u i x, m.hazard i = some x → m.Behind u i x → m'.Behind u i x

theorem Own.refl (m : Scanned T) : Own m m := ⟨rfl, rfl, rfl⟩

theorem Own.trans {m'' : Scanned T} (h : Own m m') (h' : Own m' m'') : Own m m'' :=
  ⟨h'.toHazards.trans h.toHazards, h'.held.trans h.held, h'.inserting.trans h.inserting⟩

theorem Own.hazard (h : Own m m') : m'.hazard = m.hazard := congrArg Hazards.hazard h.toHazards

theorem Own.len (h : Own m m') : m'.len = m.len := congrArg Hazards.len h.toHazards

theorem Spared.refl (t : T) (m : Scanned T) : Spared t m m :=
  ⟨rfl, id, rfl, rfl, fun _ _ _ _ _ => id⟩

theorem Spared.trans {m'' : Scanned T} (h : Spared t m m') (h' : Spared t m' m'') :
    Spared t m m'' where
  asked := h'.asked.trans h.asked
  kept hk := h.kept (h'.kept hk)
  next := h'.next.trans h.next
  result := h'.result.trans h.result
  ahead x n hx hk hr ha :=
    h'.ahead x n (h.asked.trans hx) hk (h.result.trans hr) (h.ahead x n hx (h'.kept hk) hr ha)

variable [DecidableEq T]

/-- The owner may count on its array, and on scans to stop at what they look for; a scan may
count on a copy to stay ahead. -/
def watching (validate : Bool) (owner : T) : Protocol (system validate owner) NotPassed where
  inv := Present
  rely t m m' := Spared t m m' ∧ (t = owner → Own m m' ∧ Halts m m')
  guar u m m' := (∀ t, t ≠ u → Spared t m m') ∧ (u ≠ owner → Own m m' ∧ Halts m m')
  needs _ _ _ _ := True
  rely_refl t m := ⟨.refl t m, fun _ => ⟨.refl m, fun _ _ _ _ => id⟩⟩
  rely_trans t m m' m'' h h' := by
    refine ⟨h.1.trans h'.1, fun ht => ?_⟩
    obtain ⟨hown, hhalts⟩ := h.2 ht
    obtain ⟨hown', hhalts'⟩ := h'.2 ht
    refine ⟨hown.trans hown', fun u i x hx hb => ?_⟩
    exact hhalts' u i x (hown.hazard ▸ hx) (hhalts u i x hx hb)
  guar_refl u m := ⟨fun t _ => .refl t m, fun _ => ⟨.refl m, fun _ _ _ _ => id⟩⟩
  rely_of_guar t u m m' hne _ _ h := ⟨h.1 t hne, fun ht => h.2 (ht ▸ hne.symm)⟩

/-! ### Scans -/

/-- Thread `t` has called `contains(x)`. -/
structure Asking (t : T) (x : ℕ) (m : Scanned T) : Prop where
  asked : m.asked t = some x
  result : m.result t = none

/-- Thread `t` has come to cell `i` in its scan of the first `n`. -/
structure At (t : T) (x n i : ℕ) (m : Scanned T) : Prop extends Asking t x m where
  next : m.next t = i
  ahead : m.kept t = true → m.Ahead t x n

variable {x : ℕ}

theorem stable_asking : (watching validate owner).Stable t (Asking t x) := by
  rintro m m' - ⟨h, -⟩ hJ
  exact ⟨h.asked.trans hJ.asked, h.result.trans hJ.result⟩

theorem stable_at {x n i : ℕ} : (watching validate owner).Stable t (At t x n i) := by
  rintro m m' hI ⟨h, ho⟩ hJ
  refine ⟨stable_asking m m' hI ⟨h, ho⟩ hJ.toAsking, h.next.trans hJ.next, fun hk => ?_⟩
  exact h.ahead x n hJ.asked hk hJ.result (hJ.ahead (h.kept hk))

variable {J : Scanned T → Prop} {J' : β → Scanned T → Prop}

/-- A thread's own access, as long as it leaves the array and the other scans alone. -/
theorem does_scan {act : HazardAct β}
    (h : ∀ m b m', Present m → J m → handle t β act m = .ok (b, m') →
      Present m' ∧ Own m m' ∧ Halts m m' ∧ (∀ u, u ≠ t → Spared u m m') ∧ J' b m') :
    (watching validate owner).Does t J act J' := by
  refine fun m hI hJ => ⟨trivial, fun _ b m' hb => ?_⟩
  obtain ⟨hI', hown, hhalts, hspared, hJ'⟩ := h m b m' hI hJ hb
  exact ⟨hI', ⟨hspared, fun _ => ⟨hown, hhalts⟩⟩, hJ'⟩

theorem handle_loadLen : handle t ℕ .loadLen m = .ok (m.len, m) := rfl

theorem handle_loadHazard {i : ℕ} {v : Option ℕ}
    (h : handle t (Option ℕ) (.loadHazard i) m = .ok (v, m')) :
    v = m.hazard i ∧
      m' = if m.hazard i = m.asked t then m else { m with next := update m.next t (i + 1) } := by
  rw [handle, Hazards.handle] at h
  split at h
  · rename_i hx
    split_ifs at hx
    obtain ⟨rfl, rfl⟩ := ok_inj hx
    obtain ⟨rfl, rfl⟩ := ok_inj h
    exact ⟨rfl, rfl⟩
  · cases h

/-- Nobody else minds how far a scan has come. -/
theorem spared_next {n : ℕ} (hu : u ≠ t) : Spared u m { m with next := update m.next t n } := by
  have hother : update m.next t n u = m.next u := update_of_ne hu _ _
  refine ⟨rfl, id, hother, rfl, fun y l _ _ _ ⟨j, hj⟩ => ⟨j, ?_⟩⟩
  show update m.next t n u ≤ j ∧ _
  rw [hother]
  exact hj

theorem does_loadLen_scan :
    (watching validate owner).Does t (fun m => Asking t x m ∧ m.next t = 0) .loadLen
      fun n m => n ≤ hazardsLen ∧ At t x n 0 m := by
  refine does_scan fun m b m' hI hJ hb => ?_
  obtain ⟨rfl, rfl⟩ := ok_inj (handle_loadLen.symm.trans hb)
  refine ⟨hI, .refl m, fun _ _ _ _ => id, fun u _ => .refl u m, hI.short, hJ.1, hJ.2, fun hk => ?_⟩
  obtain ⟨j, hj, hx⟩ := hI.held x (hI.kept t x hJ.1.asked hk)
  exact ⟨j, hJ.2 ▸ Nat.zero_le j, hj, hj, hx⟩

/-- Reading a cell finds the offset, or leaves the copy ahead. -/
theorem does_loadHazard_scan {x n i : ℕ} :
    (watching validate owner).Does t (At t x n i) (.loadHazard i) fun v m =>
      if v = some x then Asking t x m else At t x n (i + 1) m := by
  refine does_scan fun m v m' hI hJ hb => ?_
  obtain ⟨rfl, rfl⟩ := handle_loadHazard hb
  rw [hJ.asked]
  by_cases hx : m.hazard i = some x
  · rw [if_pos hx, if_pos hx]
    exact ⟨hI, .refl m, fun _ _ _ _ => id, fun u _ => .refl u m, hJ.toAsking⟩
  · rw [if_neg hx, if_neg hx]
    refine ⟨⟨hI.short, hI.held, hI.kept, hI.result⟩, ⟨rfl, rfl, rfl⟩, ?_, fun u => spared_next, ?_⟩
    · intro u k y hy hbehind hasked hkept hresult
      show update m.next t (i + 1) u ≤ k
      by_cases hu : u = t
      · subst hu
        -- the scan is at a cell before `k`, as that one holds what it looks for
        have hle := hbehind hasked hkept hresult
        rw [hJ.next] at hle
        rw [update_self]
        refine Nat.lt_of_le_of_ne hle ?_
        rintro rfl
        exact hx (hy.trans (hasked.symm.trans hJ.asked))
      · rw [update_of_ne hu]
        exact hbehind hasked hkept hresult
    · refine ⟨⟨hJ.asked, hJ.result⟩, update_self _ _ _, fun hk => ?_⟩
      obtain ⟨j, hnext, hn, hlen, hj⟩ := hJ.ahead hk
      refine ⟨j, ?_, hn, hlen, hj⟩
      show update m.next t (i + 1) t ≤ j
      rw [update_self]
      refine Nat.lt_of_le_of_ne (hJ.next ▸ hnext) ?_
      rintro rfl
      exact hx hj

/-- A scan that ends without a find was about an offset that has been removed. -/
def Missed (t : T) (x : ℕ) (found : Bool) (m : Scanned T) : Prop :=
  Asking t x m ∧ (found = false → m.kept t = false)

theorem stable_missed {found : Bool} : (watching validate owner).Stable t (Missed t x found) := by
  rintro m m' hI ⟨h, ho⟩ ⟨hasking, hmissed⟩
  refine ⟨stable_asking m m' hI ⟨h, ho⟩ hasking, fun hfound => ?_⟩
  rw [Bool.eq_false_iff]
  exact fun hk => Bool.eq_false_iff.mp (hmissed hfound) (h.kept hk)

theorem keeps_position_scan {x n k i : ℕ} (hn : k + i = n) (hm : At t x n i m) :
    (watching validate owner).Keeps t (Hazards.position x k i)
      (fun r => Missed t x r.isSome) m := by
  induction k generalizing i m with
  | zero =>
    refine keeps_of_rely fun m' hI hR => keeps_pure stable_missed ?_
    have hm' := stable_at m m' hI hR hm
    refine ⟨hm'.toAsking, fun _ => Bool.eq_false_iff.mpr fun hk => ?_⟩
    obtain ⟨j, hj, hlt, -⟩ := hm'.ahead hk
    rw [hm'.next] at hj
    omega
  | succ k ih =>
    rw [Hazards.position]
    refine keeps_access does_loadHazard_scan stable_at (fun v m' hI hv => ?_) hm
    by_cases hx : v = some x
    · rw [if_pos hx] at hv ⊢
      exact keeps_pure stable_missed ⟨hv, fun h => by cases h⟩
    · rw [if_neg hx] at hv ⊢
      exact ih (by omega) hv

theorem does_returned {found : Bool} :
    (watching validate owner).Does t (Missed t x found) (.returned found) fun _ _ => True := by
  refine does_scan fun m b m' hI hJ hb => ?_
  obtain ⟨-, rfl⟩ := ok_inj hb
  have hother : ∀ u, u ≠ t → update m.result t (some found) u = m.result u :=
    fun u hu => update_of_ne hu _ _
  refine ⟨⟨hI.short, hI.held, hI.kept, ?_⟩, ⟨rfl, rfl, rfl⟩, ?_, ?_, trivial⟩
  · intro u hk
    show update m.result t (some found) u ≠ some false
    by_cases hu : u = t
    · subst hu
      rw [update_self]
      intro hfalse
      exact Bool.eq_false_iff.mp (hJ.2 (Option.some.inj hfalse)) hk
    · rw [hother u hu]
      exact hI.result u hk
  · intro u k y hy hbehind hasked hkept hresult
    have hresult : update m.result t (some found) u = none := hresult
    by_cases hu : u = t
    · subst hu
      rw [update_self] at hresult
      cases hresult
    · exact hbehind hasked hkept (hother u hu ▸ hresult)
  · exact fun u hu => ⟨rfl, id, rfl, hother u hu, fun _ _ _ _ _ => id⟩

theorem keeps_contains (hm : Asking t x m ∧ m.next t = 0) :
    (watching validate owner).Keeps t (do
        let found ← Hazards.contains x
        lift (.returned found)) (fun _ _ => True) m := by
  refine keeps_bind ?_
  have hstart : (watching validate owner).Stable t fun m => Asking t x m ∧ m.next t = 0 := by
    rintro m m' hI ⟨h, ho⟩ ⟨hasking, hnext⟩
    exact ⟨stable_asking m m' hI ⟨h, ho⟩ hasking, h.next.trans hnext⟩
  refine keeps_access does_loadLen_scan hstart (fun n m' hI hn => ?_) hm
  obtain ⟨hshort, hat⟩ := hn
  rw [Nat.min_eq_left hshort]
  refine keeps_bind ((keeps_position_scan rfl hat).mono fun r m'' hr => ?_)
  refine keeps_of_rely fun m₁ hI₁ hR => ?_
  refine keeps_pure (fun m₁ m₂ hI₂ hR₂ h => h.stable hR₂) ?_
  exact keeps_lift does_returned stable_missed (fun _ _ _ _ _ _ => trivial)
    (stable_missed m'' m₁ hI₁ hR hr)

/-! ### The owner -/

/-- What depends on the array alone stays as it is between two accesses of the owner. -/
theorem stable_own (hJ : ∀ m m', Own m m' → J m → J m') :
    (watching validate owner).Stable owner J :=
  fun m m' _ hR => hJ m m' (hR.2 rfl).1

theorem does_own {act : HazardAct β}
    (h : ∀ m b m', Present m → J m → NotPassed owner β act m → handle owner β act m = .ok (b, m') →
      Present m' ∧ (∀ u, u ≠ owner → Spared u m m') ∧ J' b m') :
    (watching validate owner).Does owner J act J' := by
  refine fun m hI hJ => ⟨trivial, fun hg b m' hb => ?_⟩
  obtain ⟨hI', hspared, hJ'⟩ := h m b m' hI hJ hg hb
  exact ⟨hI', ⟨hspared, fun h => absurd rfl h⟩, hJ'⟩

theorem does_loadLen :
    (watching validate owner).Does owner J .loadLen fun n m => J m ∧ m.len = n := by
  refine does_own fun m b m' hI hJ _ hb => ?_
  obtain ⟨rfl, rfl⟩ := ok_inj (handle_loadLen.symm.trans hb)
  exact ⟨hI, fun u _ => .refl u m, hJ, rfl⟩

theorem does_loadHazard {i : ℕ} (hJ : ∀ m m', Own m m' → J m → J m') :
    (watching validate owner).Does owner J (.loadHazard i) fun v m => J m ∧ m.hazard i = v := by
  refine does_own fun m b m' hI hm _ hb => ?_
  obtain ⟨rfl, rfl⟩ := handle_loadHazard hb
  by_cases hx : m.hazard i = m.asked owner
  · rw [if_pos hx]
    exact ⟨hI, fun u _ => .refl u m, hm, rfl⟩
  · rw [if_neg hx]
    exact ⟨⟨hI.short, hI.held, hI.kept, hI.result⟩, fun u => spared_next, hJ m _ ⟨rfl, rfl, rfl⟩ hm, rfl⟩

/-- The owner's reads leave what it knows of its array. -/
theorem keeps_reads {α : Type} {p : Prog HazardAct α}
    (hp : p.Only fun _ act => act.reads = true) (hJ : ∀ m m', Own m m' → J m → J m') (hm : J m) :
    (watching validate owner).Keeps owner p (fun _ m' => J m') m := by
  refine keeps_of_only hp (stable_own hJ) (fun β act hact => ?_) hm
  cases act with
  | loadLen => exact does_loadLen.mono (fun _ h => h) fun _ _ h => h.1
  | loadHazard i => exact (does_loadHazard hJ).mono (fun _ h => h) fun _ _ h => h.1
  | panic e => exact fun m _ _ => ⟨trivial, fun _ b => b.elim⟩
  | _ => cases hact

theorem keeps_panic {α : Type} {e : Panic} {Q : α → Scanned T → Prop} :
    (watching validate owner).Keeps t (Hazards.panic e) Q m :=
  fun _ _ _ => ⟨trivial, fun _ b => b.elim⟩

theorem only_position (x n i : ℕ) :
    (Hazards.position x n i).Only fun _ act => act.reads = true := by
  induction n generalizing i with
  | zero => exact .pure _
  | succ n ih => exact .bind (.lift rfl) fun v => .ite (.pure _) (ih _)

theorem only_contains (x : ℕ) : (Hazards.contains x).Only fun _ act => act.reads = true :=
  .bind (.lift rfl) fun _ => .bind (only_position _ _ _) fun _ => .pure _

theorem only_panic {α : Type} (e : Panic) :
    (Hazards.panic e : Prog HazardAct α).Only fun _ act => act.reads = true :=
  .bind (.lift rfl) fun b => b.elim

theorem only_collect (n i : ℕ) : (Hazards.collect n i).Only fun _ act => act.reads = true := by
  induction n generalizing i with
  | zero => exact .pure _
  | succ n ih =>
    refine .bind (.lift rfl) fun v => ?_
    cases v with
    | none => exact only_panic _
    | some x => exact .bind (ih _) fun _ => .pure _

theorem only_check : (Hazards.check validate).Only fun _ act => act.reads = true := by
  refine .bind (.lift rfl) fun n => ?_
  exact .ite (.bind (only_collect _ _) fun _ => .ite (.pure _) (only_panic _)) (.pure _)

/-! ### `insert` -/

theorem handle_storeHazard {i : ℕ} {v : Option ℕ} {b : Unit}
    (h : handle t Unit (.storeHazard i v) m = .ok (b, m')) :
    i < hazardsLen ∧ m' = { m with hazard := update m.hazard i v } := by
  rw [handle, Hazards.handle] at h
  split at h
  · rename_i hx
    split_ifs at hx with hi
    obtain ⟨-, rfl⟩ := ok_inj hx
    obtain ⟨-, rfl⟩ := ok_inj h
    exact ⟨hi, rfl⟩
  · cases h

/-- The owner is about to insert `x` as the `n`-th. -/
structure Inserting (x n : ℕ) (m : Scanned T) : Prop where
  inserting : m.inserting = some x
  len : m.len = n

omit [DecidableEq T] in
theorem Inserting.own {x n : ℕ} (h : Own m m') (hm : Inserting x n m) : Inserting x n m' :=
  ⟨h.inserting.trans hm.inserting, h.len.trans hm.len⟩

/-- The cell behind the last is nobody's yet. -/
theorem does_storeHazard_insert {x n : ℕ} :
    (watching validate owner).Does owner (Inserting x n) (.storeHazard n (some x))
      fun _ m => Inserting x n m ∧ n < hazardsLen ∧ m.hazard n = some x := by
  refine does_own fun m b m' hI hm _ hb => ?_
  obtain ⟨hn, rfl⟩ := handle_storeHazard hb
  have hother : ∀ j < m.len, update m.hazard n (some x) j = m.hazard j :=
    fun j hj => update_of_ne (hm.len ▸ hj.ne) _ _
  refine ⟨⟨hI.short, fun y hy => ?_, hI.kept, hI.result⟩, fun u _ => ⟨rfl, id, rfl, rfl, ?_⟩,
    ⟨hm.inserting, hm.len⟩, hn, update_self _ _ _⟩
  · obtain ⟨j, hj, hx⟩ := hI.held y hy
    exact ⟨j, hj, (hother j hj).trans hx⟩
  · rintro y l - - - ⟨j, hnext, hl, hj, hx⟩
    exact ⟨j, hnext, hl, hj, (hother j hj).trans hx⟩

theorem does_storeLen_insert {x n : ℕ} :
    (watching validate owner).Does owner
      (fun m => Inserting x n m ∧ n < hazardsLen ∧ m.hazard n = some x) (.storeLen (n + 1))
      fun _ _ => True := by
  refine does_own fun m b m' hI hm _ hb => ?_
  obtain ⟨hm, hn, hx⟩ := hm
  obtain rfl : m' = { m with len := n + 1, held := update m.held x true, inserting := none } := by
    simp only [handle, Hazards.handle, note, hm.inserting] at hb
    exact (ok_inj hb).2.symm
  refine ⟨⟨hn, fun y hy => ?_, fun u y hu hk => ?_, hI.result⟩, fun u _ => ⟨rfl, id, rfl, rfl, ?_⟩,
    trivial⟩
  · have hy : update m.held x true y = true := hy
    by_cases hyx : y = x
    · subst hyx
      exact ⟨n, Nat.lt_succ_self n, hx⟩
    · rw [update_of_ne hyx] at hy
      obtain ⟨j, hj, hjy⟩ := hI.held y hy
      exact ⟨j, (hm.len ▸ hj).trans (Nat.lt_succ_self n), hjy⟩
  · show update m.held x true y = true
    by_cases hyx : y = x
    · rw [hyx, update_self]
    · rw [update_of_ne hyx]
      exact hI.kept u y hu hk
  · rintro y l - - - ⟨j, hnext, hl, hj, hjy⟩
    exact ⟨j, hnext, hl, (hm.len ▸ hj).trans (Nat.lt_succ_self n), hjy⟩

theorem keeps_insert (hm : m.inserting = some x) :
    (watching validate owner).Keeps owner (Hazards.insert validate x) (fun _ _ => True) m := by
  have hinserting : ∀ m m' : Scanned T, Own m m' → m.inserting = some x → m'.inserting = some x :=
    fun _ _ h hm => h.inserting.trans hm
  have htaken : (Hazards.isTaken validate x).Only fun _ act => act.reads = true :=
    .ite (only_contains x) (.pure _)
  refine keeps_bind ((keeps_reads htaken hinserting hm).mono fun taken m₁ hm₁ => ?_)
  refine keeps_ite (fun _ => keeps_panic) fun _ => ?_
  refine keeps_access does_loadLen (stable_own hinserting) (fun n m₂ _ hm₂ => ?_) hm₁
  refine keeps_access does_storeHazard_insert (stable_own fun _ _ => Inserting.own)
    (fun _ m₃ _ hm₃ => ?_) ⟨hm₂.1, hm₂.2⟩
  refine keeps_access does_storeLen_insert (stable_own ?_) (fun _ m₄ _ _ => ?_) hm₃
  · rintro m m' h ⟨hi, hn, hx⟩
    exact ⟨hi.own h, hn, h.hazard ▸ hx⟩
  · exact keeps_reads (J := fun _ => True) only_check (fun _ _ _ h => h) trivial

/-! ### `swap_remove` -/

/-- The owner is removing `y` from `n` cells. -/
structure Removing (y n : ℕ) (m : Scanned T) : Prop where
  inserting : m.inserting = none
  held : m.held y = false
  len : m.len = n

omit [DecidableEq T] in
theorem Removing.own {y n : ℕ} (h : Own m m') (hm : Removing y n m) : Removing y n m' :=
  ⟨h.inserting.trans hm.inserting, h.held ▸ hm.held, h.len.trans hm.len⟩

omit [DecidableEq T] in
/-- What a scan is about and keeps is not what is being removed. -/
theorem Removing.ne {x y n : ℕ} (hm : Removing y n m) (hx : m.held x = true) : x ≠ y := by
  rintro rfl
  rw [hm.held] at hx
  cases hx

theorem keeps_position {y n k i : ℕ} (hm : Removing y n m) :
    (watching validate owner).Keeps owner (Hazards.position y k i)
      (fun r m' => Removing y n m' ∧ ∀ j ∈ r, m'.hazard j = some y ∧ j < i + k) m := by
  induction k generalizing i m with
  | zero =>
    refine keeps_pure (stable_own ?_) ⟨hm, fun j hj => by cases hj⟩
    rintro m m' h ⟨hm, -⟩
    exact ⟨hm.own h, fun j hj => by cases hj⟩
  | succ k ih =>
    rw [Hazards.position]
    refine keeps_access (does_loadHazard fun _ _ => Removing.own) (stable_own fun _ _ => Removing.own)
      (fun v m₁ _ hm₁ => ?_) hm
    obtain ⟨hm₁, hv⟩ := hm₁
    refine keeps_ite (fun hx => ?_) fun _ => ?_
    · refine keeps_pure (stable_own ?_) ⟨hm₁, ?_⟩
      · rintro m m' h ⟨hm, hfound⟩
        exact ⟨hm.own h, fun j hj => h.hazard ▸ hfound j hj⟩
      · rintro j ⟨⟩
        exact ⟨hv.trans hx, by omega⟩
    · refine (ih hm₁).mono fun r m₂ h => ⟨h.1, fun j hj => ?_⟩
      obtain ⟨hy, hlt⟩ := h.2 j hj
      exact ⟨hy, by omega⟩

/-- The last offset has been copied into the hole `i`. -/
structure Moved (y n i : ℕ) (m : Scanned T) : Prop extends Removing y n m where
  index : i < n
  copy : m.hazard i = m.hazard (n - 1)
  last : i = n - 1 → m.hazard i = some y
  behind : ∀ u x, m.hazard i = some x → m.Behind u i x

omit [DecidableEq T] in
/-- What is held, and is in the last cell, has a copy in the hole. -/
theorem Moved.of_last {x y n i : ℕ} (hm : Moved y n i m) (hx : m.held x = true)
    (hlast : m.hazard (n - 1) = some x) : i < n - 1 ∧ m.hazard i = some x := by
  have hi := hm.copy.trans hlast
  refine ⟨?_, hi⟩
  have hne : i ≠ n - 1 := by
    intro h
    exact hm.ne hx (Option.some.inj (hi.symm.trans (hm.last h)))
  have := hm.index
  omega

theorem stable_moved {y n i : ℕ} : (watching validate owner).Stable owner (Moved y n i) := by
  rintro m m' - ⟨-, hR⟩ hm
  obtain ⟨hown, hhalts⟩ := hR rfl
  refine ⟨hm.toRemoving.own hown, hm.index, ?_, fun h => ?_, fun u x hx => ?_⟩
  · rw [hown.hazard]
    exact hm.copy
  · rw [hown.hazard]
    exact hm.last h
  · rw [hown.hazard] at hx
    exact hhalts u i x hx (hm.behind u x hx)

/-- Only the copy of what is being removed is overwritten. -/
theorem does_storeHazard_move {y n i : ℕ} {last : Option ℕ} :
    (watching validate owner).Does owner
      (fun m => (Removing y n m ∧ m.hazard i = some y ∧ i < n) ∧ m.hazard (n - 1) = last)
      (.storeHazard i last) fun _ m => Moved y n i m := by
  refine does_own fun m b m' hI hm hg hb => ?_
  obtain ⟨⟨hm, hy, hi⟩, hlast⟩ := hm
  obtain ⟨-, rfl⟩ := handle_storeHazard hb
  have hother : ∀ x j, m.held x = true → m.hazard j = some x → update m.hazard i last j = some x := by
    intro x j hx hj
    have hne : j ≠ i := by
      rintro rfl
      exact hm.ne hx (Option.some.inj (hj.symm.trans hy))
    rw [update_of_ne hne]
    exact hj
  refine ⟨⟨hI.short, fun x hx => ?_, hI.kept, hI.result⟩, fun u _ => ⟨rfl, id, rfl, rfl, ?_⟩,
    ⟨hm.inserting, hm.held, hm.len⟩, hi, ?_, fun h => ?_, fun u x hx => ?_⟩
  · obtain ⟨j, hj, hjx⟩ := hI.held x hx
    exact ⟨j, hj, hother x j hx hjx⟩
  · rintro x l hasked hk - ⟨j, hnext, hl, hj, hjx⟩
    exact ⟨j, hnext, hl, hj, hother x j (hI.kept u x hasked hk) hjx⟩
  · show update m.hazard i last i = update m.hazard i last (n - 1)
    rw [update_self]
    by_cases h : n - 1 = i
    · rw [h, update_self]
    · rw [update_of_ne h, hlast]
  · show update m.hazard i last i = some y
    rw [update_self, ← hlast, ← h]
    exact hy
  · have hx : update m.hazard i last i = some x := hx
    rw [update_self] at hx
    subst hx
    exact hg hm.inserting u

/-- The last cell is cleared: a scan that still has it ahead has the hole ahead as well. -/
theorem does_storeHazard_clear {y n i : ℕ} :
    (watching validate owner).Does owner (Moved y n i) (.storeHazard (n - 1) none)
      fun _ m => Removing y n m ∧ 0 < n ∧ m.hazard (n - 1) = none := by
  refine does_own fun m b m' hI hm _ hb => ?_
  obtain ⟨-, rfl⟩ := handle_storeHazard hb
  have hother : ∀ j, j ≠ n - 1 → update m.hazard (n - 1) none j = m.hazard j :=
    fun j hj => update_of_ne hj _ _
  have hpos : 0 < n := Nat.zero_lt_of_lt hm.index
  refine ⟨⟨hI.short, fun x hx => ?_, hI.kept, hI.result⟩, fun u _ => ⟨rfl, id, rfl, rfl, ?_⟩,
    ⟨hm.inserting, hm.held, hm.len⟩, hpos, update_self _ _ _⟩
  · obtain ⟨j, hj, hjx⟩ := hI.held x hx
    by_cases hlast : j = n - 1
    · subst hlast
      obtain ⟨hi, hix⟩ := hm.of_last hx hjx
      exact ⟨i, hi.trans hj, (hother i hi.ne).trans hix⟩
    · exact ⟨j, hj, (hother j hlast).trans hjx⟩
  · rintro x l hasked hk hresult ⟨j, hnext, hl, hj, hjx⟩
    by_cases hlast : j = n - 1
    · subst hlast
      obtain ⟨hi, hix⟩ := hm.of_last (hI.kept u x hasked hk) hjx
      exact ⟨i, hm.behind u x hix hasked hk hresult, hi.trans hl, hi.trans hj,
        (hother i hi.ne).trans hix⟩
    · exact ⟨j, hnext, hl, hj, (hother j hlast).trans hjx⟩

theorem does_storeLen_remove {y n : ℕ} :
    (watching validate owner).Does owner
      (fun m => Removing y n m ∧ 0 < n ∧ m.hazard (n - 1) = none) (.storeLen (n - 1))
      fun _ _ => True := by
  refine does_own fun m b m' hI hm _ hb => ?_
  obtain ⟨hm, hpos, hnone⟩ := hm
  obtain rfl : m' = { m with len := n - 1, inserting := none } := by
    simp only [handle, Hazards.handle, note, hm.inserting] at hb
    exact (ok_inj hb).2.symm
  have hlen := hm.len
  have hlt : ∀ j x, j < m.len → m.hazard j = some x → j < n - 1 := by
    intro j x hj hx
    have hne : j ≠ n - 1 := by
      rintro rfl
      rw [hnone] at hx
      cases hx
    omega
  refine ⟨⟨?_, fun x hx => ?_, hI.kept, hI.result⟩, fun u _ => ⟨rfl, id, rfl, rfl, ?_⟩, trivial⟩
  · have := hI.short
    show n - 1 ≤ hazardsLen
    omega
  · obtain ⟨j, hj, hjx⟩ := hI.held x hx
    exact ⟨j, hlt j x hj hjx, hjx⟩
  · rintro x l - - - ⟨j, hnext, hl, hj, hjx⟩
    exact ⟨j, hnext, hl, hlt j x hj hjx, hjx⟩

theorem keeps_swapRemove {y : ℕ} (hm : m.inserting = none ∧ m.held y = false) :
    (watching validate owner).Keeps owner (Hazards.swapRemove validate y) (fun _ _ => True) m := by
  have hstart : ∀ m m' : Scanned T, Own m m' → m.inserting = none ∧ m.held y = false →
      m'.inserting = none ∧ m'.held y = false :=
    fun _ _ h hm => ⟨h.inserting.trans hm.1, h.held ▸ hm.2⟩
  refine keeps_access does_loadLen (stable_own hstart) (fun n m₁ hI₁ hm₁ => ?_) hm
  obtain ⟨hm₁, rfl⟩ := hm₁
  rw [Nat.min_eq_left hI₁.short]
  refine keeps_bind ((keeps_position ⟨hm₁.1, hm₁.2, rfl⟩).mono fun r m₂ hm₂ => ?_)
  obtain ⟨hm₂, hr⟩ := hm₂
  cases r with
  | none => exact keeps_pure (fun _ _ _ _ h => h) trivial
  | some i =>
    obtain ⟨hy, hi⟩ := hr i rfl
    rw [Nat.zero_add] at hi
    have hfound : ∀ m m' : Scanned T, Own m m' →
        Removing y m₁.len m ∧ m.hazard i = some y ∧ i < m₁.len →
        Removing y m₁.len m' ∧ m'.hazard i = some y ∧ i < m₁.len :=
      fun _ _ h hm => ⟨hm.1.own h, h.hazard ▸ hm.2.1, hm.2.2⟩
    refine keeps_access (does_loadHazard hfound) (stable_own hfound) (fun last m₃ _ hm₃ => ?_)
      ⟨hm₂, hy, hi⟩
    refine keeps_access does_storeHazard_move (stable_own ?_) (fun _ m₄ _ hm₄ => ?_) hm₃
    · rintro m m' h ⟨hm, hlast⟩
      exact ⟨hfound m m' h hm, h.hazard ▸ hlast⟩
    refine keeps_access does_storeHazard_clear stable_moved (fun _ m₅ _ hm₅ => ?_) hm₄
    refine keeps_access does_storeLen_remove (stable_own ?_) (fun _ m₆ _ _ => ?_) hm₅
    · rintro m m' h ⟨hm, hpos, hnone⟩
      exact ⟨hm.own h, hpos, h.hazard ▸ hnone⟩
    refine keeps_bind ((keeps_reads (J := fun _ => True) only_check (fun _ _ _ h => h)
      trivial).mono fun _ _ _ => ?_)
    exact keeps_pure (fun _ _ _ _ h => h) trivial

/-! ### All runs -/

/-- Nobody else minds what the owner has asked before. -/
theorem call_insert (hI : Present m) :
    Present (m.callInsert t x) ∧ ∀ u, u ≠ t → Spared u m (m.callInsert t x) := by
  have hkept : ∀ u, (m.callInsert t x).kept u = true → u ≠ t ∧ m.kept u = true := by
    intro u hu
    have hu : update m.kept t false u = true := hu
    by_cases hut : u = t
    · rw [hut, update_self] at hu
      cases hu
    · rw [update_of_ne hut] at hu
      exact ⟨hut, hu⟩
  have hasked : ∀ u, u ≠ t → (m.callInsert t x).asked u = m.asked u :=
    fun u hu => update_of_ne hu _ _
  refine ⟨⟨hI.short, hI.held, fun u y hy hk => ?_, fun u hk => hI.result u (hkept u hk).2⟩,
    fun u hu => ⟨hasked u hu, fun hk => (hkept u hk).2, rfl, rfl, fun _ _ _ _ _ h => h⟩⟩
  obtain ⟨hut, hk⟩ := hkept u hk
  exact hI.kept u y ((hasked u hut).symm.trans hy) hk

/-- From the call on, no scan for the offset is about one that is kept. -/
theorem call_remove (hI : Present m) :
    Present (m.callRemove t x) ∧ ∀ u, u ≠ t → Spared u m (m.callRemove t x) := by
  have hkept : ∀ u, (m.callRemove t x).kept u = true →
      u ≠ t ∧ m.kept u = true ∧ m.asked u ≠ some x := by
    intro u hu
    have hu : update (fun u => m.kept u && decide (m.asked u ≠ some x)) t false u = true := hu
    by_cases hut : u = t
    · rw [hut, update_self] at hu
      cases hu
    · rw [update_of_ne hut, Bool.and_eq_true, decide_eq_true_iff] at hu
      exact ⟨hut, hu⟩
  have hasked : ∀ u, u ≠ t → (m.callRemove t x).asked u = m.asked u :=
    fun u hu => update_of_ne hu _ _
  refine ⟨⟨hI.short, fun y hy => ?_, fun u y hy hk => ?_, fun u hk => hI.result u (hkept u hk).2.1⟩,
    fun u hu => ⟨hasked u hu, fun hk => (hkept u hk).2.1, rfl, rfl, fun _ _ _ _ _ h => h⟩⟩
  · have hy : update m.held x false y = true := hy
    by_cases hyx : y = x
    · rw [hyx, update_self] at hy
      cases hy
    · rw [update_of_ne hyx] at hy
      exact hI.held y hy
  · obtain ⟨hut, hk, hne⟩ := hkept u hk
    rw [hasked u hut] at hy
    have hyx : y ≠ x := by
      rintro rfl
      exact hne hy
    show update m.held x false y = true
    rw [update_of_ne hyx]
    exact hI.kept u y hy hk

/-- A new scan has everything ahead. -/
theorem call_contains (hI : Present m) :
    Present (m.callContains t x) ∧ (∀ u, u ≠ t → Spared u m (m.callContains t x)) ∧
      Halts m (m.callContains t x) := by
  have hsame : ∀ u, u ≠ t → (m.callContains t x).asked u = m.asked u ∧
      (m.callContains t x).kept u = m.kept u ∧ (m.callContains t x).next u = m.next u ∧
      (m.callContains t x).result u = m.result u :=
    fun u hu => ⟨update_of_ne hu _ _, update_of_ne hu _ _, update_of_ne hu _ _, update_of_ne hu _ _⟩
  have hself : (m.callContains t x).asked t = some x ∧ (m.callContains t x).kept t = m.held x ∧
      (m.callContains t x).next t = 0 ∧ (m.callContains t x).result t = none :=
    ⟨update_self _ _ _, update_self _ _ _, update_self _ _ _, update_self _ _ _⟩
  refine ⟨⟨hI.short, hI.held, fun u y hy hk => ?_, fun u hk => ?_⟩, fun u hu => ?_, ?_⟩
  · by_cases hut : u = t
    · subst hut
      rw [hself.1] at hy
      rw [hself.2.1] at hk
      exact Option.some.inj hy ▸ hk
    · rw [(hsame u hut).1] at hy
      rw [(hsame u hut).2.1] at hk
      exact hI.kept u y hy hk
  · by_cases hut : u = t
    · subst hut
      rw [hself.2.2.2]
      exact fun h => by cases h
    · rw [(hsame u hut).2.1] at hk
      rw [(hsame u hut).2.2.2]
      exact hI.result u hk
  · obtain ⟨hasked, hkept, hnext, hresult⟩ := hsame u hu
    refine ⟨hasked, fun hk => hkept ▸ hk, hnext, hresult, fun y n _ _ _ ⟨j, hj⟩ => ⟨j, ?_⟩⟩
    rw [hnext]
    exact hj
  · intro u k y _ hb hy hk hresult
    by_cases hut : u = t
    · subst hut
      rw [hself.2.2.1]
      exact Nat.zero_le k
    · obtain ⟨hasked, hkept, hnext, hresult'⟩ := hsame u hut
      rw [hnext]
      exact hb (hasked ▸ hy) (hkept ▸ hk) (hresult' ▸ hresult)

theorem calls_watching : (watching validate owner).Calls := by
  intro t c m hI _ hlegal
  cases c with
  | insert x =>
    obtain rfl : t = owner := hlegal
    obtain ⟨hI', hspared⟩ := call_insert (t := t) (x := x) hI
    exact ⟨hI', ⟨hspared, fun h => absurd rfl h⟩, keeps_insert rfl⟩
  | swapRemove x =>
    obtain rfl : t = owner := hlegal
    obtain ⟨hI', hspared⟩ := call_remove (t := t) (x := x) hI
    refine ⟨hI', ⟨hspared, fun h => absurd rfl h⟩, keeps_bind ?_⟩
    refine (keeps_swapRemove ⟨rfl, update_self _ _ _⟩).mono fun _ _ _ => ?_
    exact keeps_pure (fun _ _ _ _ h => h) trivial
  | contains x =>
    obtain ⟨hI', hspared, hhalts⟩ := call_contains (t := t) (x := x) hI
    refine ⟨hI', ⟨hspared, fun _ => ⟨⟨rfl, rfl, rfl⟩, hhalts⟩⟩, keeps_contains ⟨⟨?_, ?_⟩, ?_⟩⟩
    · exact update_self _ _ _
    · exact update_self _ _ _
    · exact update_self _ _ _

omit [DecidableEq T] in
theorem present_zeroed : Present (zeroed : Scanned T) where
  short := Nat.zero_le _
  held _ h := by cases h
  kept _ _ h := by cases h
  result _ h := by cases h

/-- **A scan finds an offset that is held throughout**, whatever else is inserted and removed
meanwhile, in runs in which no offset is moved to where a scan for it has already been. -/
theorem contains_of_kept {w : Pool T HazardAct (Scanned T)} {found : Bool}
    (hrun : ReflTransGen (Pool.Steps (system validate owner) NotPassed) (Pool.idle zeroed) w)
    (hkept : w.mem.kept t = true) (hresult : w.mem.result t = some found) : found = true := by
  have hI := (Protocol.run calls_watching (good_idle present_zeroed fun _ _ _ _ => trivial) hrun).inv
  rw [← Bool.not_eq_false]
  rintro rfl
  exact hI.result t hkept hresult

/-- Thread 0 inserts two offsets; thread 1 looks for the second, and has read only the length
when the first is removed. -/
theorem contains_of_kept_moved :
    ∃ w : Pool (Fin 2) HazardAct (Scanned (Fin 2)),
      ReflTransGen (Pool.Steps (system true 0) NotPassed) (Pool.idle zeroed) w ∧
      w.mem.asked 1 = some 8192 ∧ w.mem.kept 1 = true ∧ w.mem.result 1 = some true := by
  have hplay : ((Pool.play (system true 0) NotPassed [.call 0 (.insert 4096), .go 0 9,
      .call 0 (.insert 8192), .go 0 9, .call 1 (.contains 8192), .go 1 1,
      .call 0 (.swapRemove 4096), .go 0 9, .go 1 3] (Pool.idle zeroed)).any
      fun w : Pool (Fin 2) HazardAct (Scanned (Fin 2)) => w.mem.asked 1 = some 8192 ∧
        w.mem.kept 1 = true ∧ (w.mem.result 1).isSome = true) = true := by
    decide +kernel
  obtain ⟨w, hrun, hasked, hkept, hresult⟩ := Pool.exists_of_play hplay
  obtain ⟨found, hfound⟩ := Option.isSome_iff_exists.mp hresult
  refine ⟨w, hrun, hasked, hkept, ?_⟩
  rw [hfound, contains_of_kept hrun hkept hfound]

/-- The same, but its cell has been read when the first offset is removed: the second, which is
held all the time, is not found. -/
theorem contains_misses_kept :
    ∃ w : Pool (Fin 2) HazardAct (Scanned (Fin 2)),
      ReflTransGen (Pool.Steps (system true 0) Guard.any) (Pool.idle zeroed) w ∧
      w.mem.asked 1 = some 8192 ∧ w.mem.kept 1 = true ∧ w.mem.held 8192 = true ∧
      w.mem.result 1 = some false := by
  have hplay : ((Pool.play (system true 0) Guard.any [.call 0 (.insert 4096), .go 0 9,
      .call 0 (.insert 8192), .go 0 9, .call 1 (.contains 8192), .go 1 2,
      .call 0 (.swapRemove 4096), .go 0 9, .go 1 2] (Pool.idle zeroed)).any
      fun w : Pool (Fin 2) HazardAct (Scanned (Fin 2)) => w.mem.asked 1 = some 8192 ∧
        w.mem.kept 1 = true ∧ w.mem.held 8192 = true ∧ w.mem.result 1 = some false) = true := by
    decide +kernel
  obtain ⟨w, hrun, h⟩ := Pool.exists_of_play hplay
  exact ⟨w, hrun, h⟩

end Scanned

end Cxlalloc
