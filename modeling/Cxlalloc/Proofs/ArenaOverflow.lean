/-
The one addition of the arena that is not checked.

Every sum of `DaxArena::allocate` is checked or bounded by the arena, except `candidate +
rounded_len`, which is compared with the offset of the next extent before anything says
that the request is not larger than the arena.  A candidate that is looked at with an
extent behind it is aligned and leaves a unit of the arena for that extent.  Conversely
every such offset is a candidate of some search: fill the arena up to it and put one unit
behind.  So a request is safe in every table exactly when its rounded length fits into the
word behind each of these offsets (`clean_iff`).
-/
import Cxlalloc.OverflowChecks
import Cxlalloc.Proofs.ArenaSearch

namespace Cxlalloc.Preload

open Function
open Relation

/-! ### The two builds -/

theorem addOrPanic_eq_ok {a b c : ℕ} : addOrPanic a b = .ok c ↔ a + b = c ∧ a + b < usizeSize := by
  unfold addOrPanic
  split <;> simp [*]

theorem addOrPanic_eq_error {a b : ℕ} (h : usizeSize ≤ a + b) : addOrPanic a b = .error .overflow :=
  if_neg (Nat.not_lt.mpr h)

/-- The subtraction behind the mask has been checked one line before. -/
theorem strictAlignUp_eq {v a : ℕ} : strictAlignUp v a = .ok (alignUp v a) := by
  rw [strictAlignUp, alignUp]
  by_cases ha : 1 ≤ a
  · rw [checkedSub_eq_some.mpr ⟨ha, rfl⟩]
    dsimp only [Option.bind_eq_bind, Option.bind_some]
    cases checkedAdd v (a - 1) with
    | none => rfl
    | some w => simp [subOrPanic, ha, maskDown]
  · rw [checkedSub, if_neg ha]
    rfl

theorem strictAlignedOffset_eq {base offset a : ℕ} :
    strictAlignedOffset base offset a = .ok (alignedOffset base offset a) := by
  rw [strictAlignedOffset, alignedOffset]
  cases checkedAdd base offset with
  | none => rfl
  | some absolute =>
    dsimp only [Option.bind_eq_bind, Option.bind_some]
    rw [strictAlignUp_eq, ok_bind]
    cases alignUp absolute a <;> rfl

namespace DaxArena

variable {arena : DaxArena} {extents extents' : Extents} {alignment len n c₀ c size : ℕ}
  {lock : Except ArenaError Unit}

/-- A search that does not panic finds what it finds in a release build. -/
theorem seek_of_strictSeek {r : Except ArenaError ℕ}
    (h : arena.strictSeek extents alignment len n c₀ = .ok r) :
    arena.seek extents alignment len n c₀ = some r := by
  induction n generalizing c₀ with
  | zero => cases h
  | succ n ih =>
    rw [strictSeek, strictAlignedOffset_eq, ok_bind] at h
    rw [seek]
    cases hc : alignedOffset arena.base c₀ alignment with
    | none =>
      rw [hc] at h
      exact congrArg some (Except.ok.inj h)
    | some c =>
      rw [hc] at h
      dsimp only at h ⊢
      cases hnext : extents.nextFrom c with
      | none =>
        rw [hnext] at h
        exact congrArg some (Except.ok.inj h)
      | some e =>
        rw [hnext] at h
        dsimp only at h ⊢
        cases hstop : addOrPanic c len with
        | error p =>
          rw [hstop] at h
          cases h
        | ok stop =>
          obtain ⟨rfl, hlt⟩ := addOrPanic_eq_ok.mp hstop
          rw [hstop, ok_bind] at h
          rw [Nat.mod_eq_of_lt hlt]
          by_cases hfit : c + len ≤ e.offset
          · rw [if_pos hfit] at h ⊢
            exact congrArg some (Except.ok.inj h)
          · rw [if_neg hfit] at h ⊢
            cases hend : checkedAdd e.offset e.roundedLen with
            | none =>
              rw [hend] at h
              exact congrArg some (Except.ok.inj h)
            | some c' =>
              rw [hend] at h
              exact ih h

/-- A call that does not panic does what it does in a release build. -/
theorem allocate_of_strictAllocate {r : Except ArenaError (ℕ × Extents)}
    (h : arena.strictAllocate lock size alignment extents = .ok r) :
    arena.allocate lock size alignment extents = some r := by
  rw [strictAllocate] at h
  rw [allocate]
  split at h
  · rename_i hpow
    rw [if_pos hpow]
    exact congrArg some (Except.ok.inj h)
  rename_i hpow
  rw [if_neg hpow]
  dsimp only at h ⊢
  rw [strictAlignUp_eq, ok_bind] at h
  cases hlen : alignUp (max size 1) arena.alignment with
  | none =>
    rw [hlen] at h
    exact congrArg some (Except.ok.inj h)
  | some len =>
    rw [hlen] at h
    dsimp only at h ⊢
    cases lock with
    | error e => exact congrArg some (Except.ok.inj h)
    | ok u =>
      dsimp only at h ⊢
      cases hslot : extents.position fun extent => !extent.active with
      | none =>
        rw [hslot] at h
        exact congrArg some (Except.ok.inj h)
      | some slot =>
        rw [hslot] at h
        dsimp only at h ⊢
        cases hseek : arena.strictSeek extents (max alignment arena.alignment) len
            (maxExtents + 1) 0 with
        | error p =>
          rw [hseek] at h
          cases h
        | ok r' =>
          rw [hseek, ok_bind] at h
          rw [seek_of_strictSeek hseek]
          cases r' with
          | error e => exact congrArg some (Except.ok.inj h)
          | ok c =>
            dsimp only at h ⊢
            cases hstop : (checkedAdd c len).filter fun stop =>
                decide (stop ≤ arena.size) with
            | none =>
              rw [hstop] at h
              exact congrArg some (Except.ok.inj h)
            | some stop =>
              rw [hstop] at h
              dsimp only at h ⊢
              cases hp : addOrPanic arena.base c with
              | error p =>
                rw [hp] at h
                cases h
              | ok p =>
                obtain ⟨rfl, -⟩ := addOrPanic_eq_ok.mp hp
                rw [hp] at h
                exact congrArg some (Except.ok.inj h)

theorem seek_error {e : ArenaError}
    (h : arena.seek extents alignment len n c₀ = some (.error e)) : e = .overflow := by
  induction n generalizing c₀ with
  | zero => cases h
  | succ n ih =>
    rw [seek] at h
    split at h
    · cases h
      rfl
    split at h
    · cases h
    split at h
    · cases h
    split at h
    · cases h
      rfl
    · exact ih h

/-- The errors an allocation can return. -/
theorem allocate_error {e : ArenaError}
    (h : arena.allocate lock size alignment extents = some (.error e)) :
    e = .invalidAlignment ∨ e = .overflow ∨ e = .outOfMemory ∨ lock = .error e := by
  rw [allocate] at h
  split at h
  · cases h
    simp
  dsimp only at h
  split at h
  · cases h
    simp
  split at h
  · cases h
    simp
  split at h
  · cases h
    simp
  split at h
  · cases h
  · rename_i hseek
    cases h
    simp [seek_error hseek]
  split at h
  · cases h
    simp
  · cases h

/-! ### Where the sum stays in the word -/

/-- The rounded length of the request fits into the word behind every aligned offset of the
arena that has a unit behind it. -/
def Addable (arena : DaxArena) (alignment len : ℕ) : Prop :=
  ∀ c, alignment ∣ arena.base + c → c + arena.alignment ≤ arena.size → c + len < usizeSize

/-- Every extent is at least a unit long, and inside the arena. -/
def Whole (arena : DaxArena) (extents : Extents) : Prop :=
  ∀ i, (extents i).active = true → arena.alignment ≤ (extents i).roundedLen ∧
    (extents i).offset + (extents i).roundedLen ≤ arena.size

theorem strictSeek_returns (whole : arena.Whole extents) (ha : isPowerOfTwo alignment = true)
    (hadd : arena.Addable alignment len) (hn : extents.ahead c₀ < n) :
    ∃ r, arena.strictSeek extents alignment len n c₀ = .ok r := by
  induction n generalizing c₀ with
  | zero => cases hn
  | succ n ih =>
    rw [strictSeek, strictAlignedOffset_eq, ok_bind]
    cases hc : alignedOffset arena.base c₀ alignment with
    | none => exact ⟨_, rfl⟩
    | some c =>
      obtain ⟨hdvd, hge, -, -⟩ := alignedOffset_spec ha hc
      dsimp only
      cases hnext : extents.nextFrom c with
      | none => exact ⟨_, rfl⟩
      | some e =>
        obtain ⟨⟨i, rfl⟩, hactive, hle, -⟩ := Extents.nextFrom_eq_some hnext
        obtain ⟨hunit, hinside⟩ := whole i hactive
        have hlt := hadd c hdvd (by omega)
        dsimp only
        rw [addOrPanic_eq_ok.mpr ⟨rfl, hlt⟩, ok_bind]
        split
        · exact ⟨_, rfl⟩
        split
        · exact ⟨_, rfl⟩
        rename_i c' hc'
        obtain ⟨rfl, -⟩ := checkedAdd_eq_some.mp hc'
        have hpos := isPowerOfTwo.pos arena.alignment_pow
        have := Extents.ahead_lt hactive (hge.trans hle)
          (Nat.lt_add_of_pos_right (hpos.trans_le hunit))
        exact ih (by omega)

theorem strictAllocate_returns (hbase : arena.base + arena.size < usizeSize)
    (whole : arena.Whole extents)
    (hadd : isPowerOfTwo alignment = true → ∀ len,
      alignUp (max size 1) arena.alignment = some len →
        arena.Addable (max alignment arena.alignment) len) :
    ∃ r, arena.strictAllocate lock size alignment extents = .ok r := by
  rw [strictAllocate]
  split
  · exact ⟨_, rfl⟩
  rename_i hpow
  have hpow : isPowerOfTwo alignment = true := by simpa using hpow
  dsimp only
  rw [strictAlignUp_eq, ok_bind]
  cases hlen : alignUp (max size 1) arena.alignment with
  | none => exact ⟨_, rfl⟩
  | some len =>
    dsimp only
    cases lock with
    | error e => exact ⟨_, rfl⟩
    | ok u =>
      dsimp only
      split
      · exact ⟨_, rfl⟩
      obtain ⟨r, hr⟩ := strictSeek_returns whole (isPowerOfTwo.max hpow arena.alignment_pow)
        (hadd hpow len hlen) (Nat.lt_succ_of_le (extents.ahead_le 0))
      rw [hr, ok_bind]
      cases r with
      | error e => exact ⟨_, rfl⟩
      | ok c =>
        dsimp only
        split
        · exact ⟨_, rfl⟩
        rename_i stop hstop
        obtain ⟨hsum, hsize⟩ := Option.filter_eq_some_iff.mp hstop
        obtain ⟨rfl, -⟩ := checkedAdd_eq_some.mp hsum
        have hsize : c + len ≤ arena.size := by simpa using hsize
        rw [addOrPanic_eq_ok.mpr ⟨rfl, by omega⟩]
        exact ⟨_, rfl⟩

/-- The call returns, and with an extent or one of three errors; a lock that was not
obtained answers for itself. -/
def Clean (arena : DaxArena) (lock : Except ArenaError Unit) (size alignment : ℕ)
    (extents : Extents) : Prop :=
  ∃ r, arena.strictAllocate lock size alignment extents = .ok r ∧
    ∀ e, r = .error e →
      e = .invalidAlignment ∨ e = .overflow ∨ e = .outOfMemory ∨ lock = .error e

end DaxArena

variable {e : Extent}

namespace ArenaSession

variable {arena : DaxArena} {s s' : ArenaSession} {P : ArenaCall → Prop}

theorem whole_step {c : ArenaCall} (whole : arena.Whole s.extents)
    (h : s.call arena c = some s') : arena.Whole s'.extents := by
  obtain rfl | ⟨lock, size, alignment, p, extents, -, hal, rfl⟩ | ⟨lock, p, extents, -, hde, rfl⟩ :=
    call_cases h
  · exact whole
  · obtain ⟨slot, len, c, -, hdvd, hlen, -, -, -, hsize, -, rfl⟩ := DaxArena.allocate_eq_ok hal
    have hunit : arena.alignment ≤ len := Nat.le_of_dvd (by omega) hdvd
    exact (Extents.forall_update (P := fun e => arena.alignment ≤ e.roundedLen ∧
      e.offset + e.roundedLen ≤ arena.size)).mpr ⟨fun _ => ⟨hunit, hsize⟩, fun i _ => whole i⟩
  · obtain ⟨slot, -, -, rfl⟩ := DaxArena.deallocate_eq_ok hde
    exact (Extents.forall_update (P := fun e => arena.alignment ≤ e.roundedLen ∧
      e.offset + e.roundedLen ≤ arena.size)).mpr ⟨fun h => (by cases h), fun i _ => whole i⟩

theorem whole_run (hrun : ReflTransGen (StepWhere P arena) fresh s) : arena.Whole s.extents := by
  induction hrun with
  | refl => exact fun i h => by cases h
  | tail _ hstep ih =>
    obtain ⟨c, -, hcall⟩ := hstep
    exact whole_step ih hcall

/-! ### An arena filled up to an offset -/

/-- A run that has allocated the extents `l`, which fill the arena up to `x`. -/
structure Tiled (arena : DaxArena) (s : ArenaSession) (l : List (ℕ × ℕ)) (x : ℕ) : Prop where
  run : ReflTransGen (StepWhere (WithinAlignment arena) arena) fresh s
  entries : ∀ e, (∃ i, (s.extents i).active = true ∧
    ((s.extents i).offset, (s.extents i).roundedLen) = e) ↔ e ∈ l
  few : s.extents.ahead 0 ≤ l.length
  aligned : arena.alignment ∣ x
  covered : ∀ o < x, ∃ e ∈ l, e.1 ≤ o ∧ o < e.1 + e.2
  below : ∀ e ∈ l, e.1 + e.2 ≤ x

theorem tiled_fresh : Tiled arena fresh [] 0 where
  run := .refl
  entries e := by simp [fresh, Extents.empty, Extent.empty]
  few := by simp [Extents.ahead, fresh, Extents.empty, Extent.empty]
  aligned := dvd_zero _
  covered o ho := absurd ho (Nat.not_lt_zero _)
  below e he := by cases he

variable {l : List (ℕ × ℕ)} {x len : ℕ}

/-- There is an entry left. -/
theorem Tiled.exists_slot (h : Tiled arena s l x) (hl : l.length < maxExtents) :
    ∃ slot, s.extents.position (fun extent => !extent.active) = some slot := by
  cases hslot : s.extents.position (fun extent => !extent.active) with
  | some slot => exact ⟨slot, rfl⟩
  | none =>
    have hall : ∀ i, (s.extents i).active = true := fun i => by
      simpa using Extents.position_eq_none hslot i
    have hfew := h.few
    simp only [Extents.ahead, hall, Nat.zero_le, and_self, Finset.filter_true, Finset.card_univ,
      Fintype.card_fin] at hfew
    omega

/-- The search for a unit passes everything that is filled. -/
theorem Tiled.seek (h : Tiled arena s l x) (hbase : arena.base + arena.size < usizeSize)
    (hlen : arena.alignment ≤ len) (hroom : x + len ≤ arena.size) :
    arena.seek s.extents arena.alignment len (maxExtents + 1) 0 = some (.ok x) := by
  have hpos := isPowerOfTwo.pos arena.alignment_pow
  have ok := (tracks_run h.run).ok
  have sep := separate_run h.run
  have hfits : arena.Fits s.extents arena.alignment len x := by
    refine ⟨Nat.dvd_add arena.base_aligned h.aligned, fun i hi => .inr ?_, hroom⟩
    exact h.below _ ((h.entries _).mp ⟨i, hi, rfl⟩)
  obtain ⟨c, hc, hlow⟩ : ∃ c,
      arena.seekExact s.extents arena.alignment len (maxExtents + 1) 0 = some c ∧
        ∀ o, arena.Fits s.extents arena.alignment len o → c ≤ o :=
    DaxArena.seekExact_lowest ok.pos hpos (fun _ _ => Nat.zero_le _)
      (Nat.lt_succ_of_le (s.extents.ahead_le 0))
  have hle := hlow x hfits
  have hseek := DaxArena.seek_of_seekExact arena.alignment_pow (by omega) (by omega) hc
  suffices hx : c = x by rw [← hx]; exact hseek
  -- an offset that is filled lies in an extent, which would be in the way
  refine hle.antisymm (Nat.le_of_not_lt fun hlt => ?_)
  obtain ⟨hclear, -⟩ := DaxArena.seek_clearBelow sep (fun i _ hi => absurd hi (Nat.not_lt_zero _))
    (dvd_zero _) hseek
  obtain ⟨-, -, hbehind⟩ := DaxArena.seek_spec arena.alignment_pow hseek
  obtain ⟨e, he, hstart, hend⟩ := h.covered c hlt
  obtain ⟨i, hi, rfl⟩ := (h.entries e).mpr he
  dsimp only at hstart hend
  rcases Nat.lt_or_ge (s.extents i).offset c with hi' | hi'
  · have := hclear i hi hi'
    omega
  · have := hbehind i hi hi'
    rw [Nat.mod_eq_of_lt (by omega)] at this
    omega

/-- The entries of a table with one entry more. -/
theorem entries_update {extents : Extents} {slot : Fin maxExtents} {p : ℕ × ℕ}
    (hslot : (extents slot).active = false) (he : e.active = true) :
    (∃ i, (update extents slot e i).active = true ∧
      ((update extents slot e i).offset, (update extents slot e i).roundedLen) = p) ↔
      p = (e.offset, e.roundedLen) ∨
        ∃ i, (extents i).active = true ∧ ((extents i).offset, (extents i).roundedLen) = p := by
  constructor
  · rintro ⟨i, hi, rfl⟩
    by_cases his : i = slot
    · subst his
      rw [update_self]
      exact .inl rfl
    · rw [update_of_ne his] at hi ⊢
      exact .inr ⟨i, hi, rfl⟩
  · rintro (rfl | ⟨i, hi, rfl⟩)
    · exact ⟨slot, by rw [update_self]; exact he, by rw [update_self]⟩
    · have his : i ≠ slot := by
        rintro rfl
        rw [hslot] at hi
        cases hi
      exact ⟨i, by rw [update_of_ne his]; exact hi, by rw [update_of_ne his]⟩

theorem ahead_update_le {extents : Extents} {slot : Fin maxExtents} {c : ℕ} :
    Extents.ahead (update extents slot e) c ≤ extents.ahead c + 1 := by
  refine (Finset.card_le_card fun i hi => ?_).trans (Finset.card_insert_le slot _)
  rw [Finset.mem_insert]
  by_cases his : i = slot
  · exact .inl his
  · rw [Finset.mem_filter, update_of_ne his] at hi
    exact .inr (Finset.mem_filter.mpr hi)

/-- One more extent. -/
theorem Tiled.allocate (h : Tiled arena s l x) (hbase : arena.base + arena.size < usizeSize)
    (hl : l.length < maxExtents) (hdvd : arena.alignment ∣ len) (hlen : 0 < len)
    (hroom : x + len ≤ arena.size) : ∃ s', Tiled arena s' ((x, len) :: l) (x + len) := by
  obtain ⟨slot, hslot⟩ := h.exists_slot hl
  have hfree : (s.extents slot).active = false := by simpa using Extents.position_eq_some hslot
  have hpos := isPowerOfTwo.pos arena.alignment_pow
  have hunit := Nat.le_of_dvd hlen hdvd
  have hround : alignUp (max len 1) arena.alignment = some len := by
    have hunder := Nat.le_of_dvd arena.base_pos arena.base_aligned
    rw [max_eq_left hlen]
    exact (alignUp_eq_some arena.alignment_pow).mpr
      ⟨(alignUpExact_le hpos hdvd le_rfl).antisymm (le_alignUpExact hpos), by omega⟩
  have hcall := DaxArena.allocate_eq_ok_iff.mpr ⟨arena.alignment_pow, rfl, len, slot, x, hround,
    hslot, by rw [max_self]; exact h.seek hbase hunit hroom, by omega, hroom, rfl, rfl⟩
  refine ⟨⟨update s.extents slot ⟨x, len, max len 1, true⟩, insert (arena.base + x) s.live⟩,
    h.run.tail ⟨.allocate (.ok ()) len arena.alignment, le_refl arena.alignment,
      Option.map_eq_some_iff.mpr ⟨_, hcall, rfl⟩⟩, fun e => ?_, ?_, Nat.dvd_add h.aligned hdvd,
    fun o ho => ?_, fun e he => ?_⟩
  · rw [List.mem_cons, ← h.entries e]
    exact entries_update hfree rfl
  · exact ahead_update_le.trans (Nat.add_le_add_right h.few 1)
  · rcases Nat.lt_or_ge o x with hox | hox
    · obtain ⟨e, he, hin⟩ := h.covered o hox
      exact ⟨e, List.mem_cons_of_mem _ he, hin⟩
    · exact ⟨(x, len), List.mem_cons_self, hox, ho⟩
  · rcases List.mem_cons.mp he with rfl | he
    · exact le_rfl
    · exact (h.below e he).trans (Nat.le_add_right _ _)

/-- One more extent, unless it is empty. -/
theorem Tiled.extend (h : Tiled arena s l x) (hbase : arena.base + arena.size < usizeSize)
    (hl : l.length < maxExtents) (hdvd : arena.alignment ∣ len) (hroom : x + len ≤ arena.size) :
    ∃ s', Tiled arena s' (if len = 0 then l else (x, len) :: l) (x + len) := by
  by_cases hlen : len = 0
  · subst hlen
    exact ⟨s, h⟩
  · rw [if_neg hlen]
    exact h.allocate hbase hl hdvd (Nat.pos_of_ne_zero hlen) hroom

/-! ### Where the sum leaves the word -/

/-- Rounding up to an offset that is aligned and in the word does not leave the word. -/
theorem alignedOffset_of_le {base offset a c : ℕ} (ha : isPowerOfTwo a = true)
    (hlt : a < usizeSize) (hle : offset ≤ c) (hdvd : a ∣ base + c) (hc : base + c < usizeSize) :
    ∃ c', alignedOffset base offset a = some c' ∧ c' ≤ c := by
  have hpos := isPowerOfTwo.pos ha
  have hword : a ∣ usizeSize := by
    obtain ⟨k, rfl⟩ := isPowerOfTwo_iff.mp ha
    exact Nat.pow_dvd_pow 2 ((Nat.pow_lt_pow_iff_right (by decide)).mp hlt).le
  have hroom := Nat.le_of_dvd (by omega) (Nat.dvd_sub hword hdvd)
  exact ⟨_, (alignedOffset_eq_some ha).mpr ⟨rfl, by omega⟩, alignedOffsetExact_le hpos hdvd hle⟩

end ArenaSession

namespace DaxArena

variable {arena : DaxArena} {extents : Extents} {alignment len n c₀ c : ℕ}

/-- A candidate with an extent behind it and no room in the word. -/
theorem strictSeek_overflow (hc : alignedOffset arena.base c₀ alignment = some c)
    {i : Fin maxExtents} (hi : (extents i).active = true) (hle : c ≤ (extents i).offset)
    (hover : usizeSize ≤ c + len) :
    arena.strictSeek extents alignment len (n + 1) c₀ = .error .overflow := by
  rw [strictSeek, strictAlignedOffset_eq, ok_bind, hc]
  dsimp only
  cases hnext : extents.nextFrom c with
  | none =>
    have := Extents.nextFrom_eq_none hnext i hi
    omega
  | some e =>
    dsimp only
    rw [addOrPanic_eq_error hover]
    rfl

/-- A search that starts at an extent goes on behind it, or panics. -/
theorem strictSeek_pass (hc : alignedOffset arena.base c₀ alignment = some c)
    (hnext : extents.nextFrom c = some e) (he : e.offset = c) (hlen : 0 < len)
    (hend : e.offset + e.roundedLen < usizeSize)
    (hover : arena.strictSeek extents alignment len n (e.offset + e.roundedLen)
      = .error .overflow) :
    arena.strictSeek extents alignment len (n + 1) c₀ = .error .overflow := by
  rw [strictSeek, strictAlignedOffset_eq, ok_bind, hc]
  dsimp only
  rw [hnext]
  dsimp only
  cases hstop : addOrPanic c len with
  | error p =>
    unfold addOrPanic at hstop
    split at hstop
    · cases hstop
    · cases hstop
      rfl
  | ok stop =>
    obtain ⟨rfl, -⟩ := addOrPanic_eq_ok.mp hstop
    rw [ok_bind, if_neg (by omega), checkedAdd_eq_some.mpr ⟨rfl, hend⟩]
    exact hover

end DaxArena

namespace ArenaSession

variable {arena : DaxArena} {alignment size len c : ℕ}

/-- Fill the arena up to one offset, from there to another, and put one unit behind. -/
theorem exists_tiled {c₀ : ℕ} (hbase : arena.base + arena.size < usizeSize)
    (hdvd₀ : arena.alignment ∣ c₀) (hdvd : arena.alignment ∣ c) (hle : c₀ ≤ c)
    (hc : c + arena.alignment ≤ arena.size) :
    ∃ s l, Tiled arena s l (c + arena.alignment) ∧ l.length < maxExtents ∧
      (c, arena.alignment) ∈ l ∧
      (c₀ < c → (c₀, c - c₀) ∈ l ∧ ∀ n, (c₀, n) ∈ l → n = c - c₀) := by
  have hpos := isPowerOfTwo.pos arena.alignment_pow
  have h₀ : Tiled arena fresh [] 0 := tiled_fresh
  obtain ⟨s₁, h₁⟩ := h₀.extend hbase (by decide) hdvd₀ (by omega)
  have hl₁ : (if c₀ = 0 then [] else [(0, c₀)]).length ≤ 1 := by split <;> simp
  obtain ⟨s₂, h₂⟩ := h₁.extend hbase (hl₁.trans_lt (by decide)) (Nat.dvd_sub hdvd hdvd₀) (by omega)
  rw [Nat.zero_add, Nat.add_sub_of_le hle] at h₂
  generalize hfirst : (if c₀ = 0 then [] else [(0, c₀)]) = l₁ at h₂ hl₁
  have hl₂ : (if c - c₀ = 0 then l₁ else (c₀, c - c₀) :: l₁).length ≤ 2 := by
    split
    · omega
    · rw [List.length_cons]
      omega
  obtain ⟨s₃, h₃⟩ := h₂.allocate hbase (hl₂.trans_lt (by decide)) dvd_rfl hpos hc
  refine ⟨s₃, _, h₃, ?_, List.mem_cons_self, fun hlt => ?_⟩
  · rw [List.length_cons]
    exact (Nat.add_le_add_right hl₂ 1).trans_lt (by decide)
  rw [if_neg (by omega)]
  refine ⟨by simp, fun n hn => ?_⟩
  rcases List.mem_cons.mp hn with he | hn
  · have := congrArg Prod.fst he
    dsimp only at this
    omega
  rcases List.mem_cons.mp hn with he | hn
  · exact congrArg Prod.snd he
  · rw [← hfirst] at hn
    split at hn
    · cases hn
    · have := congrArg Prod.fst (List.mem_singleton.mp hn)
      exact absurd this (by assumption)

/-- For an offset that is aligned and has a unit behind it there is a table in which the
search comes to it. -/
theorem exists_overflow (hbase : arena.base + arena.size < usizeSize)
    (ha : isPowerOfTwo alignment = true) (halign : alignment < usizeSize)
    (hround : alignUp (max size 1) arena.alignment = some len)
    (hdvd : max alignment arena.alignment ∣ arena.base + c)
    (hc : c + arena.alignment ≤ arena.size) (hover : usizeSize ≤ c + len) :
    ∃ s, ReflTransGen (StepWhere (fun _ => True) arena) fresh s ∧
      arena.strictAllocate (.ok ()) size alignment s.extents = .error .overflow := by
  have hmax := isPowerOfTwo.max ha arena.alignment_pow
  have hpos := isPowerOfTwo.pos arena.alignment_pow
  have hlt : max alignment arena.alignment < usizeSize := max_lt halign arena.alignment_lt
  have hunit : ∀ {d}, max alignment arena.alignment ∣ arena.base + d → arena.alignment ∣ d :=
    fun h => (Nat.dvd_add_right arena.base_aligned).mp
      ((isPowerOfTwo.dvd_max ha arena.alignment_pow).2.trans h)
  obtain ⟨-, hlen, -, -⟩ := alignUp_spec arena.alignment_pow hround
  obtain ⟨c₀, hc₀, hle⟩ := alignedOffset_of_le hmax hlt (Nat.zero_le c) hdvd (by omega)
  obtain ⟨hdvd₀, -, -, -⟩ := alignedOffset_spec hmax hc₀
  obtain ⟨s, l, h, hl, hunitAt, hfirst⟩ :=
    exists_tiled hbase (hunit hdvd₀) (hunit hdvd) hle hc
  obtain ⟨slot, hslot⟩ := h.exists_slot hl
  obtain ⟨i, hi, hat⟩ := (h.entries _).mpr hunitAt
  have hoffset : (s.extents i).offset = c := congrArg Prod.fst hat
  have hseek : arena.strictSeek s.extents (max alignment arena.alignment) len (maxExtents + 1) 0
      = .error .overflow := by
    rcases hle.lt_or_eq with hlt' | rfl
    · -- the first candidate is where an extent starts, and the next one is behind it
      obtain ⟨hmem, honly⟩ := hfirst hlt'
      obtain ⟨j, hj, hjat⟩ := (h.entries _).mpr hmem
      cases hnext : s.extents.nextFrom c₀ with
      | none =>
        have := Extents.nextFrom_eq_none hnext i hi
        omega
      | some e =>
        obtain ⟨⟨k, rfl⟩, hk, hge, hmin⟩ := Extents.nextFrom_eq_some hnext
        have hj₀ : (s.extents j).offset = c₀ := congrArg Prod.fst hjat
        have hk₀ : (s.extents k).offset = c₀ := (hj₀ ▸ hmin j hj hj₀.ge).antisymm hge
        have hkend := honly _ (hk₀ ▸ (h.entries _).mp ⟨k, hk, rfl⟩)
        refine DaxArena.strictSeek_pass hc₀ hnext hk₀ (by omega) (by omega) ?_
        obtain ⟨c', hc', hle'⟩ := alignedOffset_of_le hmax hlt le_rfl hdvd (by omega)
        obtain ⟨-, hge', -, -⟩ := alignedOffset_spec hmax hc'
        obtain rfl : c' = c := hle'.antisymm hge'
        rw [show (s.extents k).offset + (s.extents k).roundedLen = c' by omega]
        exact DaxArena.strictSeek_overflow hc' hi hoffset.ge hover
    · exact DaxArena.strictSeek_overflow hc₀ hi hoffset.ge hover
  refine ⟨s, ReflTransGen.mono (fun _ _ ⟨call, _, hcall⟩ => ⟨call, trivial, hcall⟩) _ _ h.run, ?_⟩
  rw [DaxArena.strictAllocate, if_neg (by simp [ha])]
  dsimp only
  rw [strictAlignUp_eq, ok_bind, hround]
  dsimp only
  rw [hslot]
  dsimp only
  rw [hseek, error_bind]

/-- **A request stays in the word in every table exactly when its rounded length does behind
every aligned offset that has a unit of the arena behind it.** -/
theorem clean_iff (arena : DaxArena) (size alignment : ℕ)
    (hbase : arena.base + arena.size < usizeSize) (halign : alignment < usizeSize) :
    (∀ s, ReflTransGen (StepWhere (fun _ => True) arena) fresh s →
      ∀ lock, arena.Clean lock size alignment s.extents) ↔
    (isPowerOfTwo alignment = true → ∀ len, alignUp (max size 1) arena.alignment = some len →
      arena.Addable (max alignment arena.alignment) len) := by
  constructor
  · intro hclean ha len hround c hdvd hc
    by_contra hover
    obtain ⟨s, hrun, hpanic⟩ :=
      exists_overflow hbase ha halign hround hdvd hc (Nat.le_of_not_lt hover)
    obtain ⟨r, hr, -⟩ := hclean s hrun (.ok ())
    rw [hpanic] at hr
    cases hr
  · intro hadd s hrun lock
    obtain ⟨r, hr⟩ := DaxArena.strictAllocate_returns hbase (whole_run hrun) hadd
    refine ⟨r, hr, fun e he => ?_⟩
    subst he
    exact DaxArena.allocate_error (DaxArena.allocate_of_strictAllocate hr)

/-- 16 MiB in units of 2 MiB and a request for a page. -/
theorem clean_iff_page : example16M.base + example16M.size < usizeSize ∧
    ∀ s, ReflTransGen (StepWhere (fun _ => True) example16M) fresh s →
      ∀ lock, example16M.Clean lock 4096 64 s.extents := by
  have hbase : example16M.base + example16M.size < usizeSize := by decide
  refine ⟨hbase, (clean_iff example16M 4096 64 hbase (by decide)).mpr fun _ len hround c _ hc => ?_⟩
  have hlen : alignUp (max 4096 1) example16M.alignment = some (2 ^ 21) := by decide +kernel
  obtain rfl := Option.some.inj (hlen.symm.trans hround)
  have hword : example16M.size + 2 ^ 21 < usizeSize := by decide
  omega

/-- Two extents of a unit, and a request of the whole word less one unit: behind the first
extent the sum is `2 ^ 64`. -/
theorem sum_overflows : example16M.base + example16M.size < usizeSize ∧
    ∃ s, ReflTransGen (StepWhere (fun _ => True) example16M) fresh s ∧
      example16M.strictAllocate (.ok ()) (2 ^ 64 - 2 ^ 21) 16 s.extents = .error .overflow ∧
      ¬ example16M.Clean (.ok ()) (2 ^ 64 - 2 ^ 21) 16 s.extents := by
  let calls : List ArenaCall := [.allocate (.ok ()) (2 ^ 21) 16, .allocate (.ok ()) (2 ^ 21) 16]
  have heval : (calls.foldlM (call example16M) fresh).any (fun s =>
      match example16M.strictAllocate (.ok ()) (2 ^ 64 - 2 ^ 21) 16 s.extents with
      | .ok _ => false
      | .error e => decide (e = .overflow)) = true := by decide +kernel
  obtain ⟨s, hs, hany⟩ := (Option.any_eq_true _ _).mp heval
  have hpanic : example16M.strictAllocate (.ok ()) (2 ^ 64 - 2 ^ 21) 16 s.extents
      = .error .overflow := by
    cases hx : example16M.strictAllocate (.ok ()) (2 ^ 64 - 2 ^ 21) 16 s.extents with
    | ok r =>
      rw [hx] at hany
      cases hany
    | error e =>
      rw [hx] at hany
      rw [of_decide_eq_true hany]
  refine ⟨by decide, s, run_of_calls (fun _ _ => trivial) hs, hpanic, ?_⟩
  rintro ⟨r, hr, -⟩
  rw [hpanic] at hr
  cases hr

end ArenaSession

end Cxlalloc.Preload
