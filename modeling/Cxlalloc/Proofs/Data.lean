/-
Brackets and block addresses.

`LawfulBracket` collects what the heap relies on in a bracket: every class that is not
the zero class has blocks, they fit the slab, and they fit the bitset.  `Small` and
`Large` are checked against it class by class.  With it, an offset computed from a slab
and a block leads back to both.
-/
import Cxlalloc.Data
import Cxlalloc.Proofs.BitSet
import Mathlib.Order.CompletePartialOrder

namespace Cxlalloc

open Cxlalloc.Bracket

/-- What the heap relies on in a bracket. -/
class LawfulBracket (B : Type) [Bracket B] : Prop where
  rows_le : rows B ≤ 64
  size_pos : ∀ c : B, isZero c = false → 0 < size c
  count_pos : ∀ c : B, isZero c = false → 0 < count c
  count_le : ∀ c : B, count c ≤ 64 * rows B
  fits : ∀ c : B, count c * size c ≤ sizeSlab B
  /-- Binning a size gives a class that holds it. -/
  le_size : ∀ (s : ℕ) (c : B), new s = some c → s ≤ size c
  isZero_new : ∀ (s : ℕ) (c : B), 0 < s → new s = some c → isZero c = false
  mem_classes : ∀ c : B, c ∈ (classes : List B)
  nodup_classes : (classes : List B).Nodup

/-! ### `Small` -/

theorem le_nextMultipleOf (a : ℕ) {m : ℕ} (hm : 0 < m) : a ≤ nextMultipleOf a m := by
  have hdiv := Nat.div_add_mod (a + m - 1) m
  have hmod := Nat.mod_lt (a + m - 1) hm
  rw [nextMultipleOf, Nat.mul_comm]
  omega

theorem Small.new_value {s : ℕ} {c : Small} (h : Small.new s = some c) :
    c.value.val * 8 = nextMultipleOf s 8 := by
  rw [Small.new] at h
  split at h
  · rename_i hs
    obtain rfl := Option.some.inj h
    have hs' : s ≤ 1016 := hs
    simp only [Fin.ofNat, nextMultipleOf]
    omega
  · cases h

instance : LawfulBracket Small where
  rows_le := by decide
  size_pos c h := by
    have hc : c.value ≠ 0 := by simpa [isZero] using h
    show 0 < c.value.val * 8
    have : c.value.val ≠ 0 := fun h0 => hc (Fin.ext h0)
    omega
  count_pos c h := by
    obtain ⟨v⟩ := c
    revert v
    decide
  count_le c := by
    obtain ⟨v⟩ := c
    revert v
    decide
  fits c := by
    obtain ⟨v⟩ := c
    revert v
    decide
  le_size s c h := by
    have hv := Small.new_value h
    have hle := le_nextMultipleOf s (m := 8) (by norm_num)
    show s ≤ c.value.val * 8
    omega
  isZero_new s c hs h := by
    have hv := Small.new_value h
    have hle := le_nextMultipleOf s (m := 8) (by norm_num)
    show (c.value == 0) = false
    rw [beq_eq_false_iff_ne]
    intro h0
    rw [h0] at hv
    simp only [Fin.val_zero] at hv
    omega
  mem_classes c := List.mem_map.mpr ⟨c.value, List.mem_finRange _, rfl⟩
  nodup_classes := (List.nodup_finRange 128).map fun a b h => by simpa using h

/-! ### `Large` -/

theorem trailingZeros_two_pow {w j : ℕ} (h : j < w) : trailingZeros w (2 ^ j) = j := by
  induction w generalizing j with
  | zero => omega
  | succ w ih =>
    cases j with
    | zero => rfl
    | succ j =>
      have hmod : ¬ 2 ^ (j + 1) % 2 = 1 := by rw [pow_succ]; omega
      have hdiv : 2 ^ (j + 1) / 2 = 2 ^ j := by rw [pow_succ]; omega
      rw [trailingZeros, if_neg hmod, hdiv, ih (by omega)]

theorem le_nextPowerOfTwo (n : ℕ) : n ≤ nextPowerOfTwo n := by
  rw [nextPowerOfTwo]
  split
  · omega
  · have := Nat.lt_log2_self (n := n - 1)
    omega

/-- Past the small classes, the class of a size is its binary logarithm, less ten. -/
theorem Large.le_size_new {s : ℕ} {c : Large} (h : Large.new s = some c) : s ≤ size c := by
  rw [Large.new] at h
  split at h
  · rename_i hs
    obtain rfl := Option.some.inj h
    have hs' : s ≤ 2 ^ 19 := hs
    show s ≤ 2 ^ 10 <<< (trailingZeros 64 (nextPowerOfTwo s >>> 10) % 10)
    rcases Nat.lt_or_ge 1024 s with hbig | hsmall
    · have hlow : 10 ≤ (s - 1).log2 := (Nat.le_log2 (by omega)).mpr (by omega)
      have hhigh : (s - 1).log2 < 19 := (Nat.log2_lt (by omega)).mpr (by omega)
      have hpow : nextPowerOfTwo s = 2 ^ ((s - 1).log2 + 1) := if_neg (by omega)
      have hle := le_nextPowerOfTwo s
      have hshift : 2 ^ ((s - 1).log2 + 1) >>> 10 = 2 ^ ((s - 1).log2 - 9) := by
        rw [Nat.shiftRight_eq_div_pow, Nat.pow_div (by omega) (by norm_num)]
        congr 1
      have hexp : 2 ^ 10 * 2 ^ ((s - 1).log2 - 9) = 2 ^ ((s - 1).log2 + 1) := by
        rw [← pow_add]
        congr 1
        omega
      rw [hpow, hshift, trailingZeros_two_pow (by omega), Nat.mod_eq_of_lt (by omega),
        Nat.shiftLeft_eq, hexp, ← hpow]
      exact hle
    · calc s ≤ 2 ^ 10 := hsmall
        _ ≤ 2 ^ 10 <<< _ := by
            rw [Nat.shiftLeft_eq]
            exact Nat.le_mul_of_pos_right _ (Nat.two_pow_pos _)
  · cases h

instance : LawfulBracket Large where
  rows_le := by decide
  size_pos c _ := by
    obtain ⟨v⟩ := c
    revert v
    decide
  count_pos c _ := by
    obtain ⟨v⟩ := c
    revert v
    decide
  count_le c := by
    obtain ⟨v⟩ := c
    revert v
    decide
  fits c := by
    obtain ⟨v⟩ := c
    revert v
    decide
  le_size _ _ h := Large.le_size_new h
  isZero_new _ _ _ _ := rfl
  mem_classes c := List.mem_map.mpr ⟨c.value, List.mem_finRange _, rfl⟩
  nodup_classes := (List.nodup_finRange 10).map fun a b h => by simpa using h

/-! ### Offsets -/

namespace Offset

variable {B : Type} [Bracket B] [LawfulBracket B] {c : B} {i : Index B} {b : Bit}

omit [LawfulBracket B] in
theorem fromBlock_value : (fromBlock c i b).value
    = i.value * sizeSlab B + b.toNat * size c := rfl

/-- A block ends inside its slab. -/
theorem block_end_le (hb : b.toNat < count c) : b.toNat * size c + size c ≤ sizeSlab B := by
  have hfit := LawfulBracket.fits c
  have hmul : (b.toNat + 1) * size c ≤ count c * size c := Nat.mul_le_mul_right _ hb
  have : (b.toNat + 1) * size c = b.toNat * size c + size c := by ring
  omega

theorem intoIndex_fromBlock (hi : i.value < 2 ^ 32) (hc : isZero c = false)
    (hb : b.toNat < count c) : (fromBlock c i b).intoIndex = some i := by
  have hend := block_end_le hb
  have hpos := LawfulBracket.size_pos c hc
  have hdiv : (fromBlock c i b).value / sizeSlab B = i.value := by
    rw [fromBlock_value, Nat.mul_comm, Nat.mul_add_div sizeSlab_pos, Nat.div_eq_of_lt (by omega)]
    rfl
  have hmod : (fromBlock c i b).value / sizeSlab B % 2 ^ 32 = i.value := by
    rw [hdiv, Nat.mod_eq_of_lt hi]
  rw [intoIndex, dif_pos (by rw [hmod]; exact i.pos)]
  exact congrArg some (Index.ext hmod)

theorem intoBlock_fromBlock (hc : isZero c = false) (hb : b.toNat < count c) :
    (fromBlock c i b).intoBlock c = some b := by
  have hend := block_end_le hb
  have hpos := LawfulBracket.size_pos c hc
  have hmod : (fromBlock c i b).value % sizeSlab B = b.toNat * size c := by
    rw [fromBlock_value, Nat.add_comm, Nat.add_mul_mod_self_right, Nat.mod_eq_of_lt (by omega)]
  have hdiv : b.toNat * size c / size c = b.toNat := Nat.mul_div_cancel _ hpos
  have hrows := LawfulBracket.rows_le (B := B)
  have hcount := LawfulBracket.count_le c
  rw [intoBlock, if_neg (by omega), hmod, hdiv]
  exact congrArg some (Bit.toNat_inj (Bit.fromLoose_toNat (by omega)))

end Offset

/-- A block number that the class can have lies in a row of the bitset. -/
theorem Bit.row_lt {B : Type} [Bracket B] [LawfulBracket B] {c : B} {b : Bit}
    (hb : b.toNat < count c) : b.row.val < rows B := by
  have hcount := LawfulBracket.count_le c
  have := b.toNat_eq
  omega

/-! ### Blocks and their bytes -/

section Blocks

variable {B : Type} [Bracket B] [LawfulBracket B] {c : B} {i : Index B} {b d : ℕ}

/-- A block number below the count is a position in the bitset. -/
theorem Bit.fromLoose_count (hb : b < count c) : (Bit.fromLoose b).toNat = b := by
  have hcount := LawfulBracket.count_le c
  have hrows := LawfulBracket.rows_le (B := B)
  exact Bit.fromLoose_toNat (by omega)

/-- A byte of a block leads back to its slab and its block. -/
theorem Offset.back (hi : i.value < 2 ^ 32) (hslab : sizeSlab B ≤ 2 ^ 31)
    (hb : b < count c) (hd : d < size c) :
    ∃ o, (Offset.fromBlock c i (.fromLoose b)).add d = some o ∧
      o.value = i.value * sizeSlab B + b * size c + d ∧
      o.intoIndex = some i ∧ o.intoBlock c = some (.fromLoose b) := by
  have hbit := Bit.fromLoose_count hb
  have hend : b * size c + size c ≤ sizeSlab B := by
    have := block_end_le (c := c) (b := .fromLoose b) (by rwa [hbit])
    rwa [hbit] at this
  have hvalue : (Offset.fromBlock c i (.fromLoose b)).value = i.value * sizeSlab B + b * size c := by
    rw [Offset.fromBlock_value, hbit]
  have hbound : i.value * sizeSlab B + sizeSlab B < 2 ^ 64 := by
    have hmul : (i.value + 1) * sizeSlab B ≤ 2 ^ 32 * 2 ^ 31 :=
      Nat.mul_le_mul (by omega) hslab
    have : (i.value + 1) * sizeSlab B = i.value * sizeSlab B + sizeSlab B := by ring
    omega
  have hsum : i.value * sizeSlab B + b * size c + d
      = i.value * sizeSlab B + (b * size c + d) := by ring
  have hdiv : (i.value * sizeSlab B + (b * size c + d)) / sizeSlab B = i.value := by
    rw [Nat.mul_comm, Nat.mul_add_div sizeSlab_pos, Nat.div_eq_of_lt (by omega), Nat.add_zero]
  have hmod : (i.value * sizeSlab B + (b * size c + d)) % sizeSlab B = b * size c + d := by
    rw [Nat.add_comm, Nat.add_mul_mod_self_right, Nat.mod_eq_of_lt (by omega)]
  refine ⟨⟨i.value * sizeSlab B + b * size c + d, ?_⟩, ?_, rfl, ?_, ?_⟩
  · have := Nat.mul_pos i.pos (sizeSlab_pos (B := B))
    omega
  · rw [Offset.add, if_pos (by rw [hvalue]; omega)]
    exact congrArg some (Offset.ext (congrArg (· + d) hvalue))
  · have hindex : (i.value * sizeSlab B + b * size c + d) / sizeSlab B % 2 ^ 32 = i.value := by
      rw [hsum, hdiv, Nat.mod_eq_of_lt hi]
    rw [Offset.intoIndex, dif_pos (by rw [hindex]; exact i.pos)]
    exact congrArg some (Index.ext hindex)
  · rw [Offset.intoBlock, if_neg (by omega)]
    refine congrArg some (congrArg Bit.fromLoose ?_)
    show (i.value * sizeSlab B + b * size c + d) % sizeSlab B / size c = b
    rw [hsum, hmod, Nat.mul_comm, Nat.mul_add_div (by omega), Nat.div_eq_of_lt hd, Nat.add_zero]

end Blocks

/-- Blocks have places of their own, which can be told from the offset of any byte. -/
structure Addressing (B : Type) [Bracket B] : Prop where
  fits : ∀ (c : B) (b : ℕ), b < count c →
    (Bit.fromLoose b).row.val < rows B ∧ (Bit.fromLoose b).toNat = b
  inside : ∀ (c : B) (b : ℕ), b < count c → (b + 1) * size c ≤ sizeSlab B
  back : ∀ (c : B) (i : Index B) (b d : ℕ), isZero c = false → i.value < 2 ^ 32 → b < count c →
    d < size c → ∃ o, (Offset.fromBlock c i (.fromLoose b)).add d = some o ∧
      o.intoIndex = some i ∧ o.intoBlock c = some (.fromLoose b)
  blocks : ∀ (c : B) (i : Index B) (b b' : ℕ), isZero c = false → i.value < 2 ^ 32 →
    b < count c → b' < count c → b ≠ b' →
    Disjoint ((Offset.fromBlock c i (.fromLoose b)).bytes c)
      ((Offset.fromBlock c i (.fromLoose b')).bytes c)
  slabs : ∀ (c c' : B) (i i' : Index B) (b b' : ℕ), isZero c = false → isZero c' = false →
    i.value < 2 ^ 32 → i'.value < 2 ^ 32 → b < count c → b' < count c' → i ≠ i' →
    Disjoint ((Offset.fromBlock c i (.fromLoose b)).bytes c)
      ((Offset.fromBlock c' i' (.fromLoose b')).bytes c')

/-- A byte of a block is some distance from its start. -/
theorem Offset.mem_bytes {B : Type} [Bracket B] [LawfulBracket B] {c : B} {i : Index B} {b x : ℕ}
    (hb : b < count c) (hx : x ∈ (Offset.fromBlock c i (.fromLoose b)).bytes c) :
    ∃ d, d < size c ∧ x = i.value * sizeSlab B + b * size c + d := by
  obtain ⟨hlo, hhi⟩ := hx
  rw [Offset.fromBlock_value, Bit.fromLoose_count hb] at hlo hhi
  obtain ⟨d, rfl⟩ := Nat.exists_eq_add_of_le hlo
  exact ⟨d, by omega, rfl⟩

theorem addressing {B : Type} [Bracket B] [LawfulBracket B] (hslab : sizeSlab B ≤ 2 ^ 31) :
    Addressing B where
  fits c b hb := ⟨Bit.row_lt (by rwa [Bit.fromLoose_count hb]), Bit.fromLoose_count hb⟩
  inside c b hb :=
    le_trans (Nat.mul_le_mul_right _ hb) (LawfulBracket.fits c)
  back c i b d _ hi hb hd := by
    obtain ⟨o, hadd, -, hindex, hblock⟩ := Offset.back hi hslab hb hd
    exact ⟨o, hadd, hindex, hblock⟩
  blocks c i b b' _ hi hb hb' hne := by
    rw [Set.disjoint_left]
    intro x hx hx'
    obtain ⟨d, hd, rfl⟩ := Offset.mem_bytes hb hx
    obtain ⟨d', hd', heq⟩ := Offset.mem_bytes hb' hx'
    obtain ⟨o, -, hvalue, -, hblock⟩ := Offset.back hi hslab hb hd
    obtain ⟨o', -, hvalue', -, hblock'⟩ := Offset.back hi hslab hb' hd'
    obtain rfl : o = o' := Offset.ext (by rw [hvalue, hvalue', heq])
    have hbits := Option.some.inj (hblock.symm.trans hblock')
    exact hne (by rw [← Bit.fromLoose_count hb, hbits, Bit.fromLoose_count hb'])
  slabs c c' i i' b b' _ _ hi hi' hb hb' hne := by
    rw [Set.disjoint_left]
    intro x hx hx'
    obtain ⟨d, hd, rfl⟩ := Offset.mem_bytes hb hx
    obtain ⟨d', hd', heq⟩ := Offset.mem_bytes hb' hx'
    obtain ⟨o, -, hvalue, hindex, -⟩ := Offset.back hi hslab hb hd
    obtain ⟨o', -, hvalue', hindex', -⟩ := Offset.back hi' hslab hb' hd'
    obtain rfl : o = o' := Offset.ext (by rw [hvalue, hvalue', heq])
    exact hne (Option.some.inj (hindex.symm.trans hindex'))

/-- **Block addressing is a bijection onto disjoint ranges inside the slabs**, for both
brackets. -/
theorem addressing_small_large : Addressing Small ∧ Addressing Large :=
  ⟨addressing (by decide), addressing (by decide)⟩

end Cxlalloc
