/-
When growing a heap maps a chunk twice.

The three regions agree on which chunk a slab is in exactly if the entries of `n` slabs
fill whole pages in each of them; the remote counters are the ones that may not, with 512
of them to a page.  Then the chunks are mapped in lockstep, and a fault finds its chunk
unmapped in all three regions (`Lockstep`).  Otherwise the chunk of counters is larger than
`n` slabs, and the first fault past it maps the first chunk of counters again.
-/
import Cxlalloc.Region
import Cxlalloc.Proofs.Data
import Mathlib.Logic.Relation

namespace Cxlalloc

open Relation
open Function

variable {kind : HeapKind} {n : ℕ} {m m' : Mapping}

namespace Sequential

variable {r : Sequential} {offset address : ℕ}

/-- The chunk of an address that faults is not mapped. -/
theorem chunk_eq_none (hpos : 0 < r.size) (hle : r.start ≤ address) (h : ¬r.IsMapped address) :
    r.chunks ((address - r.start) / r.size) = none := by
  by_contra hsome
  refine h ⟨_, hsome, ?_, ?_⟩
  · have := Nat.div_mul_le_self (address - r.start) r.size
    omega
  · have := Nat.lt_div_mul_add hpos (a := address - r.start)
    rw [Nat.add_mul]
    omega

/-- Mapping a chunk that is not mapped keeps every byte. -/
theorem kept_map (h : r.chunks (offset / r.size) = none) : r.Kept (r.map offset) := by
  intro k bytes hk
  have hne : k ≠ offset / r.size := by
    rintro rfl
    rw [h] at hk
    cases hk
  show update r.chunks _ _ k = _
  rwa [update_of_ne hne]

end Sequential

/-- An entry of slab `s` is in chunk `s / n`, in chunks of `n` entries that fill them, and as
long as no slab is past the first chunk. -/
theorem chunk_of_entry {size chunk s i : ℕ} (h : chunk = n * size ∨ (s < n ∧ n * size ≤ chunk))
    (hi : i < size) : (s * size + i) / chunk = s / n := by
  have hsize : 0 < size := by omega
  rcases h with rfl | ⟨hs, hle⟩
  · rw [Nat.mul_comm n, ← Nat.div_div_eq_div_mul, Nat.mul_comm s, Nat.mul_add_div hsize,
      Nat.div_eq_of_lt hi, Nat.add_zero]
  · have hlt : s * size + i < n * size := by
      calc s * size + i < s * size + size := by omega
        _ = (s + 1) * size := by rw [Nat.add_mul, Nat.one_mul]
        _ ≤ n * size := Nat.mul_le_mul_right _ hs
    rw [Nat.div_eq_of_lt (by omega), Nat.div_eq_of_lt hs]

/-- Entries that fill whole pages fill their chunk. -/
theorem nextMultipleOf_of_dvd {a k : ℕ} (hk : 0 < k) (h : k ∣ a) : nextMultipleOf a k = a := by
  obtain ⟨q, rfl⟩ := h
  rw [nextMultipleOf, Nat.add_sub_assoc hk, Nat.mul_add_div hk, Nat.div_eq_of_lt (by omega),
    Nat.add_zero, Nat.mul_comm]

/-- Either the entries of `n` slabs fill whole pages in every region, or a heap never has
more than `n` slabs. -/
def WholeChunks (n : ℕ) : Prop :=
  512 ∣ n ∨ Mapping.maxLen ≤ n

/-- The entry of a slab that was handed out is in chunk `s / n` of each region. -/
theorem WholeChunks.chunk {size s i : ℕ} (h : WholeChunks n) (hs : s < Mapping.maxLen)
    (hsize : sizePage ∣ 512 * size) (hi : i < size) :
    (s * size + i) / nextMultipleOf (n * size) sizePage = s / n := by
  refine chunk_of_entry (h.imp (fun hdvd => ?_) fun hle => ?_) hi
  · exact nextMultipleOf_of_dvd (by decide) (hsize.trans (Nat.mul_dvd_mul_right hdvd size))
  · exact ⟨by omega, le_nextMultipleOf _ (by decide)⟩

theorem HeapKind.dvd_sizeLocal (kind : HeapKind) : sizePage ∣ 512 * kind.sizeLocal := by
  cases kind <;> decide

theorem HeapKind.dvd_sizeRemote (kind : HeapKind) : sizePage ∣ 512 * kind.sizeRemote := by
  cases kind <;> decide

theorem HeapKind.dvd_sizeSlab (kind : HeapKind) : sizePage ∣ kind.sizeSlab := by
  cases kind <;> decide

theorem HeapKind.sizes_pos (kind : HeapKind) :
    0 < kind.sizeLocal ∧ 0 < kind.sizeRemote ∧ 0 < kind.sizeSlab := by
  cases kind <;> decide

namespace Mapping

/-! ### The chunks of a fault -/

/-- The three offsets of a fault are in the entries of one slab, and one of them is the
offset of the address itself. -/
theorem offsets_eq_some {len address l r d : ℕ} (h : m.offsets kind len address = some (l, r, d)) :
    ∃ s < len, (∃ i < kind.sizeLocal, l = s * kind.sizeLocal + i) ∧
      (∃ i < kind.sizeRemote, r = s * kind.sizeRemote + i) ∧
      (∃ i < kind.sizeSlab, d = s * kind.sizeSlab + i) ∧
      ((m.locals.start ≤ address ∧ l = address - m.locals.start) ∨
        (m.remotes.start ≤ address ∧ r = address - m.remotes.start) ∨
        (m.data.start ≤ address ∧ d = address - m.data.start)) := by
  obtain ⟨hlocal, hremote, hslab⟩ := kind.sizes_pos
  -- The entry an offset below `len` entries is in.
  have hentry : ∀ {offset size}, 0 < size → offset < len * size → offset / size < len ∧
      ∃ i < size, offset = offset / size * size + i := by
    intro offset size hpos hlt
    refine ⟨(Nat.div_lt_iff_lt_mul hpos).mpr hlt, offset % size, Nat.mod_lt _ hpos, ?_⟩
    rw [Nat.mul_comm, Nat.div_add_mod]
  rw [offsets] at h
  split at h
  · rename_i hin
    simp only [Option.some.injEq, Prod.mk.injEq] at h
    obtain ⟨rfl, rfl, rfl⟩ := h
    obtain ⟨hs, hi⟩ := hentry hlocal (show address - m.locals.start < _ by omega)
    exact ⟨_, hs, hi, ⟨0, hremote, rfl⟩, ⟨0, hslab, rfl⟩, .inl ⟨hin.1, rfl⟩⟩
  split at h
  · rename_i hin
    simp only [Option.some.injEq, Prod.mk.injEq] at h
    obtain ⟨rfl, rfl, rfl⟩ := h
    obtain ⟨hs, hi⟩ := hentry hremote (show address - m.remotes.start < _ by omega)
    exact ⟨_, hs, ⟨0, hlocal, rfl⟩, hi, ⟨0, hslab, rfl⟩, .inr (.inl ⟨hin.1, rfl⟩)⟩
  split at h
  · rename_i hin
    simp only [Option.some.injEq, Prod.mk.injEq] at h
    obtain ⟨rfl, rfl, rfl⟩ := h
    obtain ⟨hs, hi⟩ := hentry hslab (show address - m.data.start < _ by omega)
    exact ⟨_, hs, ⟨0, hlocal, rfl⟩, ⟨0, hremote, rfl⟩, hi, .inr (.inr ⟨hin.1, rfl⟩)⟩
  · cases h

/-- The chunks of `n` slabs have the sizes `create` gives them. -/
structure Sized (kind : HeapKind) (n : ℕ) (m : Mapping) : Prop where
  locals : m.locals.size = nextMultipleOf (n * kind.sizeLocal) sizePage
  remotes : m.remotes.size = nextMultipleOf (n * kind.sizeRemote) sizePage
  data : m.data.size = nextMultipleOf (n * kind.sizeSlab) sizePage

/-- The same chunks are mapped in all three regions. -/
structure Lockstep (kind : HeapKind) (n : ℕ) (m : Mapping) : Prop extends Sized kind n m where
  remotes_iff : ∀ k, m.remotes.chunks k = none ↔ m.locals.chunks k = none
  data_iff : ∀ k, m.data.chunks k = none ↔ m.locals.chunks k = none

/-- In lockstep, a fault finds one chunk, which is mapped in none of the regions. -/
theorem Lockstep.fault {len address l r d : ℕ} (hm : m.Lockstep kind n) (hn : 0 < n)
    (hw : WholeChunks n) (hlen : len ≤ maxLen) (hfault : ¬m.IsMapped address)
    (h : m.offsets kind len address = some (l, r, d)) :
    ∃ k, l / m.locals.size = k ∧ r / m.remotes.size = k ∧ d / m.data.size = k ∧
      m.locals.chunks k = none := by
  obtain ⟨s, hs, ⟨i, hi, hl⟩, ⟨j, hj, hr⟩, ⟨x, hx, hd⟩, hself⟩ := offsets_eq_some h
  have hl' : l / m.locals.size = s / n := by
    rw [hl, hm.locals]
    exact hw.chunk (by omega) kind.dvd_sizeLocal hi
  have hr' : r / m.remotes.size = s / n := by
    rw [hr, hm.remotes]
    exact hw.chunk (by omega) kind.dvd_sizeRemote hj
  have hd' : d / m.data.size = s / n := by
    rw [hd, hm.data]
    exact hw.chunk (by omega) (kind.dvd_sizeSlab.mul_left _) hx
  obtain ⟨hlocal, hremote, hslab⟩ := kind.sizes_pos
  have hpos : ∀ {size}, 0 < size → 0 < nextMultipleOf (n * size) sizePage := fun hsize =>
    (Nat.mul_pos hn hsize).trans_le (le_nextMultipleOf _ (by decide))
  simp only [IsMapped, not_or] at hfault
  refine ⟨s / n, hl', hr', hd', ?_⟩
  rcases hself with ⟨hle, heq⟩ | ⟨hle, heq⟩ | ⟨hle, heq⟩
  · rw [← hl', heq]
    exact Sequential.chunk_eq_none (hm.locals ▸ hpos hlocal) hle hfault.1
  · rw [← hm.remotes_iff, ← hr', heq]
    exact Sequential.chunk_eq_none (hm.remotes ▸ hpos hremote) hle hfault.2.1
  · rw [← hm.data_iff, ← hd', heq]
    exact Sequential.chunk_eq_none (hm.data ▸ hpos hslab) hle hfault.2.2

theorem tryMap_eq_some_iff {len address : ℕ} :
    m.tryMap kind (some len) address = some m' ↔
      ∃ l r d, m.offsets kind len address = some (l, r, d) ∧
        m' = ⟨m.locals.map l, m.remotes.map r, m.data.map d⟩ := by
  simp only [tryMap, Option.bind_eq_bind, Option.bind_some, Option.bind_eq_some_iff, Prod.exists,
    Option.pure_def, Option.some.injEq, eq_comm (a := m')]

theorem Lockstep.grows {len address : ℕ} (hm : m.Lockstep kind n) (hn : 0 < n)
    (hw : WholeChunks n) (hlen : len ≤ maxLen) (hfault : ¬m.IsMapped address) :
    m.Grows kind len address := by
  have hfresh : ∀ l r d, m.offsets kind len address = some (l, r, d) →
      m.locals.chunks (l / m.locals.size) = none ∧ m.remotes.chunks (r / m.remotes.size) = none ∧
        m.data.chunks (d / m.data.size) = none := by
    intro l r d h
    obtain ⟨k, hl, hr, hd, hk⟩ := hm.fault hn hw hlen hfault h
    rw [hl, hr, hd, hm.remotes_iff, hm.data_iff]
    exact ⟨hk, hk, hk⟩
  refine ⟨hfresh, fun m' h => ?_⟩
  obtain ⟨l, r, d, hoff, rfl⟩ := tryMap_eq_some_iff.mp h
  obtain ⟨hl, hr, hd⟩ := hfresh l r d hoff
  exact ⟨Sequential.kept_map hl, Sequential.kept_map hr, Sequential.kept_map hd⟩

/-! ### Runs -/

theorem Lockstep.create (x y z : ℕ) (isLazy : Bool) :
    (create kind x y z n isLazy).Lockstep kind n where
  locals := rfl
  remotes := rfl
  data := rfl
  remotes_iff _ := Iff.rfl
  data_iff _ := Iff.rfl

/-- Writing to a mapped chunk leaves it mapped. -/
theorem update_eq_none_iff {chunks : ℕ → Option (ℕ → UInt8)} {k j : ℕ} {bytes bytes' : ℕ → UInt8}
    (hk : chunks k = some bytes) : update chunks k (some bytes') j = none ↔ chunks j = none := by
  by_cases hj : j = k
  · subst hj
    simp [hk]
  · rw [update_of_ne hj]

theorem Lockstep.step (hm : m.Lockstep kind n) (hn : 0 < n) (hw : WholeChunks n)
    (hstep : Step kind m m') : m'.Lockstep kind n := by
  cases hstep with
  | fault len address hlen hfault m' hmap =>
    obtain ⟨l, r, d, hoff, rfl⟩ := tryMap_eq_some_iff.mp hmap
    obtain ⟨k, hl, hr, hd, -⟩ := hm.fault hn hw hlen hfault hoff
    refine ⟨⟨hm.locals, hm.remotes, hm.data⟩, fun j => ?_, fun j => ?_⟩
    · show update m.remotes.chunks (r / m.remotes.size) _ j = none ↔
        update m.locals.chunks (l / m.locals.size) _ j = none
      rw [hl, hr]
      by_cases hj : j = k
      · subst hj
        simp
      · rw [update_of_ne hj, update_of_ne hj]
        exact hm.remotes_iff j
    · show update m.data.chunks (d / m.data.size) _ j = none ↔
        update m.locals.chunks (l / m.locals.size) _ j = none
      rw [hl, hd]
      by_cases hj : j = k
      · subst hj
        simp
      · rw [update_of_ne hj, update_of_ne hj]
        exact hm.data_iff j
  | storeLocal k bytes bytes' hk =>
    exact ⟨⟨hm.locals, hm.remotes, hm.data⟩,
      fun j => (hm.remotes_iff j).trans (update_eq_none_iff hk).symm,
      fun j => (hm.data_iff j).trans (update_eq_none_iff hk).symm⟩
  | storeRemote k bytes bytes' hk =>
    exact ⟨⟨hm.locals, hm.remotes, hm.data⟩,
      fun j => (update_eq_none_iff hk).trans (hm.remotes_iff j), hm.data_iff⟩
  | storeData k bytes bytes' hk =>
    exact ⟨⟨hm.locals, hm.remotes, hm.data⟩, hm.remotes_iff,
      fun j => (update_eq_none_iff hk).trans (hm.data_iff j)⟩

theorem lockstep_run {x y z : ℕ} {isLazy : Bool} (hn : 0 < n) (hw : WholeChunks n)
    (hrun : ReflTransGen (Step kind) (create kind x y z n isLazy) m) : m.Lockstep kind n := by
  induction hrun with
  | refl => exact .create x y z isLazy
  | tail _ hstep ih => exact ih.step hn hw hstep

/-! ### Counters that do not fill their pages -/

theorem counter_in_first_chunk (hdvd : ¬512 ∣ n) :
    n * kind.sizeRemote / nextMultipleOf (n * kind.sizeRemote) sizePage = 0 := by
  refine Nat.div_eq_of_lt (lt_of_le_of_ne (le_nextMultipleOf _ (by decide)) fun heq => hdvd ?_)
  have hpage : 512 * 8 ∣ n * 8 := by
    have : sizePage ∣ nextMultipleOf (n * kind.sizeRemote) sizePage := Nat.dvd_mul_left _ _
    rw [← heq] at this
    exact this
  exact (Nat.mul_dvd_mul_iff_right (by decide)).mp hpage

theorem new_chunks_of_ne {start size k : ℕ} (hk : k ≠ 0) :
    (Sequential.new start size false).chunks k = none := by
  simp [Sequential.new, hk]

/-- The data comes first, with one chunk of it mapped; then the first byte past the chunk
faults, and `try_map` finds it in the data of slab `n`. -/
theorem fault_past_first_chunk (hm : m.Sized kind n) (hdata : m.data.start = 0)
    (hfirst : ∀ k, k ≠ 0 → m.data.chunks k = none) (hlocals : n * kind.sizeSlab < m.locals.start)
    (hremotes : n * kind.sizeSlab < m.remotes.start) :
    ¬m.IsMapped (n * kind.sizeSlab) ∧
      m.offsets kind (n + 1) (n * kind.sizeSlab)
        = some (n * kind.sizeLocal, n * kind.sizeRemote, n * kind.sizeSlab) := by
  obtain ⟨-, -, hslab⟩ := kind.sizes_pos
  constructor
  · rintro (⟨k, -, hle, -⟩ | ⟨k, -, hle, -⟩ | ⟨k, hk, -, hlt⟩)
    · have := (Nat.le_add_right _ _).trans hle
      omega
    · have := (Nat.le_add_right _ _).trans hle
      omega
    · obtain rfl : k = 0 := by
        by_contra hne
        exact hk (hfirst k hne)
      rw [hdata, hm.data, nextMultipleOf_of_dvd (by decide) (kind.dvd_sizeSlab.mul_left _)] at hlt
      omega
  · have hin : n * kind.sizeSlab < 0 + (n + 1) * kind.sizeSlab := by
      rw [Nat.add_mul]
      omega
    rw [offsets, if_neg (by omega), if_neg (by omega), hdata, if_pos ⟨Nat.zero_le _, hin⟩,
      Nat.sub_zero]
    dsimp only
    rw [Nat.mul_div_cancel _ hslab]

/-- Such a fault maps the first chunk of counters again. -/
theorem remaps (kind : HeapKind) (hdvd : ¬512 ∣ n) :
    ∃ x y z address, ¬(create kind x y z n false).IsMapped address ∧
      ∃ l r d, (create kind x y z n false).offsets kind (n + 1) address = some (l, r, d) ∧
        (create kind x y z n false).remotes.chunks
          (r / (create kind x y z n false).remotes.size) ≠ none := by
  obtain ⟨-, -, hslab⟩ := kind.sizes_pos
  let x := (n + 1) * kind.sizeSlab
  let y := x + nextMultipleOf ((n + 1) * kind.sizeLocal) sizePage
  have hx : n * kind.sizeSlab < x := by
    show _ < (n + 1) * _
    rw [Nat.add_mul]
    omega
  have hy : n * kind.sizeSlab < y := hx.trans_le (Nat.le_add_right _ _)
  obtain ⟨hfault, hoff⟩ := fault_past_first_chunk (Lockstep.create x y 0 false).toSized rfl
    (fun _ hk => new_chunks_of_ne hk) hx hy
  refine ⟨x, y, 0, _, hfault, _, _, _, hoff, ?_⟩
  have hzero : n * kind.sizeRemote / (create kind x y 0 n false).remotes.size = 0 :=
    counter_in_first_chunk hdvd
  rw [hzero]
  exact Option.some_ne_none _

/-- **Lazy growth maps no chunk twice exactly if the chunks line up.** -/
theorem grows_iff (kind : HeapKind) (hn : 0 < n) :
    (∀ x y z isLazy m, ReflTransGen (Step kind) (create kind x y z n isLazy) m →
      ∀ len address, len ≤ maxLen → ¬m.IsMapped address → m.Grows kind len address) ↔
    512 ∣ n ∨ maxLen ≤ n := by
  constructor
  · intro h
    by_contra hw
    rw [not_or] at hw
    obtain ⟨x, y, z, address, hfault, l, r, d, hoff, hmapped⟩ := remaps kind hw.1
    have hlen : n + 1 ≤ maxLen := by omega
    exact hmapped ((h x y z false _ .refl (n + 1) address hlen hfault).fresh l r d hoff).2.1
  · intro hw x y z isLazy m hrun len address hlen hfault
    exact (lockstep_run hn hw hrun).grows hn hw hlen hfault

/-- A heap of 16 MiB of small slabs, 512 to a chunk. -/
theorem grows_iff_512 : 0 < 512 ∧
    ∀ x y z isLazy m, ReflTransGen (Step .small) (create .small x y z 512 isLazy) m →
      ∀ len address, len ≤ maxLen → ¬m.IsMapped address → m.Grows .small len address :=
  ⟨by decide, (grows_iff .small (by decide)).mpr (.inl (by decide))⟩

/-- A heap created with one small slab: the counter of the first slab is written, a fault is
taken in the data of the second, and the counter is zero again. -/
theorem counter_lost : ∃ m m' address,
    ReflTransGen (Step .small) (create .small (2 ^ 40) (2 ^ 41) 0 1 false) m ∧
      ¬m.IsMapped address ∧ m.tryMap .small (some 2) address = some m' ∧
      (m.remotes.chunks 0).map (· 0) = some 1 ∧ (m'.remotes.chunks 0).map (· 0) = some 0 := by
  let m₀ := create .small (2 ^ 40) (2 ^ 41) 0 1 false
  let m₁ : Mapping :=
    { m₀ with remotes.chunks := update m₀.remotes.chunks 0 (some fun _ => 1) }
  have hwrite : Step .small m₀ m₁ := .storeRemote 0 (fun _ => 0) (fun _ => 1) rfl
  have hsized : m₁.Sized .small 1 := ⟨rfl, rfl, rfl⟩
  obtain ⟨hfault, hoff⟩ := fault_past_first_chunk hsized rfl (fun _ hk => new_chunks_of_ne hk)
    (show 1 * Small.sizeSlab < 2 ^ 40 by decide) (show 1 * Small.sizeSlab < 2 ^ 41 by decide)
  have hmap := tryMap_eq_some_iff.mpr ⟨_, _, _, hoff, rfl⟩
  refine ⟨m₁, _, _, .single hwrite, hfault, hmap, rfl, ?_⟩
  have hzero : 1 * HeapKind.small.sizeRemote / m₁.remotes.size = 0 :=
    counter_in_first_chunk (by decide)
  show (update m₁.remotes.chunks (1 * HeapKind.small.sizeRemote / m₁.remotes.size) _ 0).map _ = _
  rw [hzero, update_self]
  rfl

end Mapping

end Cxlalloc
