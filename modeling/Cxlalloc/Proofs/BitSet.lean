/-
The bitset as a finite set of block numbers.

`elems` reads a bitset as the set `{64 * row + col}` of its dense bits.  The three
checks of `BitSet::validate` say exactly that `count` is the size of that set and
that `sparse` marks its non-empty rows (`validate_iff`), and every operation the heap
uses keeps them: `fill` makes an initial segment, `set` inserts an absent block, and
`unset` of the block that `peek_unchecked` chose removes the least element.

`unset` of any other member keeps them only if no row below is in use: its mask clears
`sparse` below the row (`validate_erased_iff`).
-/
import Cxlalloc.BitSet
import Mathlib.Data.Finset.Max
import Mathlib.Tactic.Ring
import Mathlib.Algebra.Order.BigOperators.Group.Finset

namespace Cxlalloc

namespace Bit

theorem toNat_eq (b : Bit) : b.toNat = 64 * b.row + b.col := by
  have h := Nat.shiftLeft_add_eq_or_of_lt (i := 6) b.col.isLt b.row.val
  rw [toNat, Nat.or_comm, ← h, Nat.shiftLeft_eq]
  omega

theorem toNat_div (b : Bit) : b.toNat / 64 = b.row := by
  have := b.col.isLt
  rw [toNat_eq]
  omega

theorem toNat_mod (b : Bit) : b.toNat % 64 = b.col := by
  have := b.col.isLt
  rw [toNat_eq]
  omega

theorem toNat_inj {a b : Bit} (h : a.toNat = b.toNat) : a = b := by
  have hr : a.row = b.row := by rw [Fin.ext_iff, ← toNat_div, ← toNat_div, h]
  have hc : a.col = b.col := by rw [Fin.ext_iff, ← toNat_mod, ← toNat_mod, h]
  cases a; cases b
  simp only at hr hc
  rw [hr, hc]

/-- Packing a block number and unpacking it again. -/
theorem fromLoose_toNat {k : ℕ} (hk : k < 4096) : (fromLoose k).toNat = k := by
  rw [toNat_eq]
  simp only [fromLoose, Fin.ofNat, Nat.shiftRight_eq_div_pow]
  have hand : k &&& 63 = k % 64 := Nat.and_two_pow_sub_one_eq_mod k 6
  rw [show (0b111111 : ℕ) = 63 from rfl, hand]
  omega

end Bit

namespace BitSet

variable {n : ℕ} {s : BitSet n}

/-- The block numbers in a bitset. -/
def elems (s : BitSet n) : Finset ℕ :=
  (Finset.range (64 * n)).filter fun k => (s.word (k / 64)).getLsbD (k % 64) = true

theorem mem_elems {k : ℕ} :
    k ∈ s.elems ↔ k < 64 * n ∧ (s.word (k / 64)).getLsbD (k % 64) = true := by
  simp [elems]

/-- The set bits of one word. -/
def cols (x : BitVec 64) : Finset ℕ :=
  (Finset.range 64).filter fun k => x.getLsbD k = true

variable {x : BitVec 64}

theorem mem_cols {k : ℕ} : k ∈ cols x ↔ k < 64 ∧ x.getLsbD k = true := by
  simp [cols]

theorem cpopNatRec_eq_card (x : BitVec 64) (m : ℕ) :
    x.cpopNatRec m 0 = ((Finset.range m).filter fun k => x.getLsbD k = true).card := by
  induction m with
  | zero => rfl
  | succ m ih =>
    rw [BitVec.cpopNatRec_succ, BitVec.cpopNatRec_eq, ih, Finset.range_add_one,
      Finset.filter_insert]
    cases hx : x.getLsbD m with
    | false => simp
    | true =>
      rw [if_pos rfl, Finset.card_insert_of_notMem (by simp)]
      simp

theorem toNat_cpop_eq_card (x : BitVec 64) : x.cpop.toNat = (cols x).card := by
  rw [BitVec.toNat_cpop, cpopNatRec_eq_card, cols]

/-- Counting row by row counts every block once. -/
theorem card_elems (s : BitSet n) : s.elems.card = ∑ i : Fin n, (cols (s.dense i)).card := by
  have hmap : ∀ k ∈ s.elems, k / 64 ∈ Finset.range n := by
    intro k hk
    have := (mem_elems.mp hk).1
    rw [Finset.mem_range]
    omega
  rw [Finset.card_eq_sum_card_fiberwise hmap, Finset.sum_range]
  refine Finset.sum_congr rfl fun i _ => ?_
  refine Finset.card_bij (fun k _ => k % 64) ?_ ?_ ?_
  · intro k hk
    obtain ⟨hk, hrow⟩ := Finset.mem_filter.mp hk
    have hbit := (mem_elems.mp hk).2
    rw [hrow, word, dif_pos i.isLt] at hbit
    exact mem_cols.mpr ⟨Nat.mod_lt _ (by norm_num), hbit⟩
  · intro a ha b hb hab
    have ha' := (Finset.mem_filter.mp ha).2
    have hb' := (Finset.mem_filter.mp hb).2
    omega
  · intro c hc
    obtain ⟨hc, hbit⟩ := mem_cols.mp hc
    have hi := i.isLt
    refine ⟨64 * i + c, Finset.mem_filter.mpr ⟨mem_elems.mpr ⟨by omega, ?_⟩, by omega⟩, by omega⟩
    rw [show (64 * i.val + c) / 64 = i by omega, show (64 * i.val + c) % 64 = c by omega, word,
      dif_pos i.isLt]
    exact hbit

/-- The checks of `validate`, in terms of the set. -/
theorem validate_iff :
    s.validate = true ↔ s.elems.card = s.count ∧
      (∀ i : Fin n, s.sparse.getLsbD i = !(s.dense i == 0)) ∧
      (∀ k, k < 64 → n ≤ k → s.sparse.getLsbD k = false) := by
  simp only [validate, Bool.and_eq_true, decide_eq_true_eq, card_elems, toNat_cpop_eq_card,
    and_assoc]
  refine and_congr_right fun _ => and_congr_right fun _ => ?_
  exact ⟨fun h k hk => h ⟨k, hk⟩, fun h k => h k k.isLt⟩

theorem len_eq_card (hv : s.validate = true) : s.len = s.elems.card :=
  (validate_iff.mp hv).1.symm

theorem isEmpty_iff (hv : s.validate = true) : s.isEmpty = true ↔ s.elems = ∅ := by
  rw [isEmpty, len_eq_card hv, beq_iff_eq, Finset.card_eq_zero]

/-! ### The words the operations write -/

theorem getLsbD_bit {c k : ℕ} (hc : c < 64) : (1#64 <<< c).getLsbD k = decide (k = c) := by
  simp only [BitVec.getLsbD_shiftLeft, BitVec.getLsbD_one]
  by_cases h : k = c
  · subst h; simp [hc]
  · have : ¬ (k < 64 ∧ c ≤ k ∧ k - c = 0) := by omega
    simp only [h, decide_false, Bool.and_eq_false_iff, decide_eq_false_iff_not,
      Bool.not_eq_false', decide_eq_true_eq]
    omega

theorem getLsbD_low {c k : ℕ} (hc : c < 64) : ((1#64 <<< c) - 1).getLsbD k = decide (k < c) := by
  have hpow : (1#64 <<< c).toNat = 2 ^ c := by
    rw [BitVec.toNat_shiftLeft, Nat.shiftLeft_eq]
    simp only [BitVec.toNat_ofNat, Nat.one_mod_two_pow_eq_one.mpr (by norm_num : 0 < 64), one_mul]
    exact Nat.mod_eq_of_lt (Nat.pow_lt_pow_right (by norm_num) hc)
  have hsub : ((1#64 <<< c) - 1).toNat = 2 ^ c - 1 := by
    have hle : (1 : BitVec 64) ≤ 1#64 <<< c := by
      rw [BitVec.le_def, hpow]
      exact Nat.one_le_two_pow
    rw [BitVec.toNat_sub_of_le hle, hpow]
    rfl
  rw [BitVec.getLsbD, hsub, Nat.testBit_two_pow_sub_one]

theorem and_bit_eq_zero {c : ℕ} (hc : c < 64) : (x &&& (1#64 <<< c) == 0) = !x.getLsbD c := by
  cases hx : x.getLsbD c with
  | false =>
    rw [Bool.not_false, beq_iff_eq]
    refine BitVec.eq_of_getLsbD_eq fun k _ => ?_
    rw [BitVec.getLsbD_and, getLsbD_bit hc]
    by_cases h : k = c
    · subst h; simp [hx]
    · simp [h]
  | true =>
    rw [Bool.not_true, beq_eq_false_iff_ne]
    intro h
    have := congrArg (fun y => y.getLsbD c) h
    simp only [BitVec.getLsbD_and, getLsbD_bit hc, hx] at this
    simp at this

theorem word_setWord {row k : ℕ} {count : ℕ} {sparse : BitVec 64} (hrow : row < n) :
    (BitSet.mk count sparse (s.setWord row x)).word k = if k = row then x else s.word k := by
  by_cases hk : k < n
  · simp only [word, dif_pos hk, setWord]
  · have : k ≠ row := by omega
    simp only [word, dif_neg hk, if_neg this]

/-! ### `fill` -/

theorem elems_fill {c : ℕ} (hc : c ≤ 64 * n) : (s.fill c).elems = Finset.range c := by
  ext k
  rw [mem_elems, Finset.mem_range]
  constructor
  · rintro ⟨hk, hbit⟩
    have hrow : k / 64 < n := by omega
    simp only [word, dif_pos hrow, fill] at hbit
    split at hbit
    · omega
    · split at hbit
      · rename_i h
        rw [getLsbD_low (Nat.mod_lt _ (by norm_num)), decide_eq_true_eq] at hbit
        omega
      · simp at hbit
  · intro hk
    have hrow : k / 64 < n := by omega
    refine ⟨by omega, ?_⟩
    simp only [word, dif_pos hrow, fill]
    split
    · simp only [BitVec.getLsbD_allOnes, decide_eq_true_eq]
      omega
    · rename_i h
      rw [if_pos (by omega), getLsbD_low (Nat.mod_lt _ (by norm_num)), decide_eq_true_eq]
      omega

theorem fill_sparse {c k : ℕ} (hn : n ≤ 64) (hc : c ≤ 64 * n) (hk : k < 64) :
    (s.fill c).sparse.getLsbD k = decide (64 * k < c) := by
  simp only [fill, BitVec.getLsbD_or]
  have hlow : (if c / 64 < 64 then (1#64 <<< (c / 64)) - 1 else BitVec.allOnes 64).getLsbD k
      = decide (k < c / 64) := by
    split
    · rename_i h; exact getLsbD_low h
    · rename_i h
      simp only [BitVec.getLsbD_allOnes, decide_eq_decide]
      omega
  have hhigh : (if c % 64 = 0 then 0 else 1#64 <<< (c / 64)).getLsbD k
      = decide (c % 64 ≠ 0 ∧ k = c / 64) := by
    split
    · rename_i h; simp [h]
    · rename_i h
      rw [getLsbD_bit (by omega)]
      simp [h]
  rw [hlow, hhigh, ← Bool.decide_or, decide_eq_decide]
  omega

theorem dense_eq_zero {i : Fin n} : s.dense i = 0 ↔ ∀ k ∈ s.elems, k / 64 ≠ i := by
  constructor
  · intro h k hk hki
    have hbit := (mem_elems.mp hk).2
    rw [hki, word, dif_pos i.isLt, h] at hbit
    simp at hbit
  · intro h
    refine BitVec.eq_of_getLsbD_eq fun k hk => ?_
    have hi := i.isLt
    have hmem : 64 * i.val + k ∉ s.elems := fun hm => h _ hm (by omega)
    rw [mem_elems, not_and, show (64 * i.val + k) / 64 = i by omega,
      show (64 * i.val + k) % 64 = k by omega, word, dif_pos i.isLt] at hmem
    simpa using hmem (by omega)

theorem validate_fill {c : ℕ} (hn : n ≤ 64) (hc : c ≤ 64 * n) : (s.fill c).validate = true := by
  refine validate_iff.mpr ⟨?_, ?_, ?_⟩
  · rw [elems_fill hc, Finset.card_range]
    rfl
  · intro i
    have hi := i.isLt
    rw [fill_sparse hn hc (by omega), Bool.eq_iff_iff, decide_eq_true_eq, Bool.not_eq_true',
      beq_eq_false_iff_ne, Ne, dense_eq_zero, elems_fill hc]
    constructor
    · intro h hall
      exact hall (64 * i.val) (Finset.mem_range.mpr h) (by omega)
    · intro h
      by_contra hlt
      exact h fun k hk => by have := Finset.mem_range.mp hk; omega
  · intro k hk hnk
    rw [fill_sparse hn hc hk, decide_eq_false_iff_not]
    omega

/-! ### `set` -/

/-- What `set` writes. -/
def inserted (s : BitSet n) (b : Bit) : BitSet n :=
  { count := s.count + 1
    sparse := s.sparse ||| (1#64 <<< b.row.val)
    dense := s.setWord b.row (s.word b.row ||| (1#64 <<< b.col.val)) }

variable {b : Bit}

theorem elems_inserted (hb : b.row.val < n) : (s.inserted b).elems = insert b.toNat s.elems := by
  ext k
  have hbit := b.toNat_eq
  have hcol := b.col.isLt
  rw [Finset.mem_insert, mem_elems, mem_elems, inserted, word_setWord hb]
  by_cases hrow : k / 64 = b.row
  · rw [if_pos hrow, BitVec.getLsbD_or, getLsbD_bit b.col.isLt, Bool.or_eq_true,
      decide_eq_true_eq, hrow]
    constructor
    · rintro ⟨hk, h | h⟩
      · exact Or.inr ⟨hk, h⟩
      · exact Or.inl (by omega)
    · rintro (h | ⟨hk, h⟩)
      · exact ⟨by omega, Or.inr (by omega)⟩
      · exact ⟨hk, Or.inl h⟩
  · rw [if_neg hrow]
    constructor
    · exact Or.inr
    · rintro (h | h)
      · exact absurd (by rw [h, b.toNat_div]) hrow
      · exact h

theorem validate_inserted (hv : s.validate = true) (hb : b.row.val < n)
    (hnew : b.toNat ∉ s.elems) : (s.inserted b).validate = true := by
  obtain ⟨hcount, hsparse, hhigh⟩ := validate_iff.mp hv
  refine validate_iff.mpr ⟨?_, ?_, ?_⟩
  · rw [elems_inserted hb, Finset.card_insert_of_notMem hnew, hcount]
    rfl
  · intro i
    have hi := i.isLt
    simp only [inserted, BitVec.getLsbD_or, getLsbD_bit b.row.isLt, setWord]
    by_cases hrow : i.val = b.row.val
    · simp only [hrow, decide_true, Bool.or_true, if_true]
      symm
      rw [Bool.not_eq_true', beq_eq_false_iff_ne]
      intro h
      have := congrArg (fun y => y.getLsbD b.col.val) h
      simp at this
    · simp only [hrow, decide_false, Bool.or_false, if_false]
      exact hsparse i
  · intro k hk hnk
    have : k ≠ b.row.val := by omega
    simp only [inserted, BitVec.getLsbD_or, getLsbD_bit b.row.isLt, this, decide_false,
      Bool.or_false]
    exact hhigh k hk hnk

/-- Setting an absent block succeeds and inserts it. -/
theorem set_eq (v : Bool) (hv : s.validate = true) (hb : b.row.val < n)
    (hnew : b.toNat ∉ s.elems) : s.set v b = .ok (s.inserted b) := by
  have hbit : (s.word b.row).getLsbD b.col = false := by
    rw [mem_elems, not_and, b.toNat_div, b.toNat_mod] at hnew
    have hcol := b.col.isLt
    have := b.toNat_eq
    simpa using hnew (by omega)
  have hdouble : ¬ ((v && !(s.word b.row &&& (1#64 <<< b.col.val) == 0)) = true) := by
    rw [and_bit_eq_zero b.col.isLt, hbit]
    simp
  have hcheck := validate_inserted hv hb hnew
  unfold inserted at hcheck
  simp only [set]
  rw [if_neg hdouble, checked, hcheck]
  simp [inserted]

/-! ### `unset` of the lowest block -/

theorem sparse_ne_zero (hv : s.validate = true) (hne : s.elems.Nonempty) : s.sparse ≠ 0#64 := by
  intro h
  obtain ⟨k, hk⟩ := hne
  have hkn := (mem_elems.mp hk).1
  have hrow := (validate_iff.mp hv).2.1 ⟨k / 64, by omega⟩
  rw [h] at hrow
  have : s.dense ⟨k / 64, by omega⟩ = 0 := by simpa using hrow
  exact dense_eq_zero.mp this k hk rfl

/-- What `peek_unchecked` finds in a consistent, non-empty set: its least block. -/
theorem peek_spec (hv : s.validate = true) (hne : s.elems.Nonempty) :
    s.peekUnchecked.row.val < n ∧ s.peekUnchecked.toNat ∈ s.elems ∧
      ∀ k ∈ s.elems, s.peekUnchecked.toNat ≤ k := by
  obtain ⟨-, hsparse, hhigh⟩ := validate_iff.mp hv
  have hs := sparse_ne_zero hv hne
  have hlt : s.sparse.ctz.toNat < 64 := by
    simpa [BitVec.lt_def] using BitVec.ctz_lt_iff_ne_zero.mpr hs
  have hset := BitVec.getLsbD_true_ctz_of_ne_zero hs
  have hrow : s.sparse.ctz.toNat < n := by
    by_contra hc
    rw [hhigh _ hlt (Nat.not_lt.mp hc)] at hset
    exact Bool.noConfusion hset
  -- The lowest non-empty row, and the lowest bit in it.
  set row := s.sparse.ctz.toNat with hrowdef
  have hdense : s.dense ⟨row, hrow⟩ ≠ 0#64 := by
    have h := hsparse ⟨row, hrow⟩
    rw [hset] at h
    intro h0
    rw [h0] at h
    simp at h
  have hword : s.word row = s.dense ⟨row, hrow⟩ := dif_pos hrow
  have hclt : (s.word row).ctz.toNat < 64 := by
    rw [hword]
    simpa [BitVec.lt_def] using BitVec.ctz_lt_iff_ne_zero.mpr hdense
  have hcset : (s.word row).getLsbD (s.word row).ctz.toNat = true := by
    rw [hword]
    exact BitVec.getLsbD_true_ctz_of_ne_zero hdense
  have hprow : s.peekUnchecked.row.val = row := by
    simp only [peekUnchecked, Fin.ofNat]
    exact Nat.mod_eq_of_lt hlt
  have hpcol : s.peekUnchecked.col.val = (s.word row).ctz.toNat := by
    simp only [peekUnchecked, Fin.ofNat]
    exact Nat.mod_eq_of_lt hclt
  have hval : s.peekUnchecked.toNat = 64 * row + (s.word row).ctz.toNat := by
    rw [Bit.toNat_eq, hprow, hpcol]
  refine ⟨by rw [hprow]; exact hrow, ?_, ?_⟩
  · rw [mem_elems, hval]
    refine ⟨by omega, ?_⟩
    rw [show (64 * row + (s.word row).ctz.toNat) / 64 = row by omega,
      show (64 * row + (s.word row).ctz.toNat) % 64 = (s.word row).ctz.toNat by omega]
    exact hcset
  · intro k hk
    obtain ⟨hkn, hkbit⟩ := mem_elems.mp hk
    rw [hval]
    by_contra hlow
    rcases Nat.lt_or_ge (k / 64) row with hkr | hkr
    · have h0 := BitVec.getLsbD_false_of_lt_ctz (x := s.sparse) (hrowdef ▸ hkr)
      have h1 := hsparse ⟨k / 64, by omega⟩
      rw [show s.sparse.getLsbD (⟨k / 64, by omega⟩ : Fin n).val = false from h0] at h1
      have hz : s.dense ⟨k / 64, by omega⟩ = 0 := by simpa using h1
      exact dense_eq_zero.mp hz k hk rfl
    · have hkrow : k / 64 = row := by omega
      rw [hkrow] at hkbit
      rw [BitVec.getLsbD_false_of_lt_ctz (x := s.word row) (i := k % 64) (by omega)] at hkbit
      exact Bool.noConfusion hkbit

/-- What `unset` writes. -/
def erased (s : BitSet n) (b : Bit) : BitSet n :=
  let cols := s.word b.row &&& ~~~(1#64 <<< b.col.val)
  { count := s.count - 1
    sparse := s.sparse &&& ((~~~(if cols = 0 then 1#64 else 0#64)) <<< b.row.val)
    dense := s.setWord b.row cols }

theorem elems_erased (hb : b.row.val < n) : (s.erased b).elems = s.elems.erase b.toNat := by
  ext k
  have hbit := b.toNat_eq
  have hcol := b.col.isLt
  rw [Finset.mem_erase, mem_elems, mem_elems, erased, word_setWord hb]
  by_cases hrow : k / 64 = b.row
  · have hmod : k % 64 < 64 := Nat.mod_lt _ (by norm_num)
    rw [if_pos hrow, BitVec.getLsbD_and, BitVec.getLsbD_not, getLsbD_bit b.col.isLt, hrow]
    simp only [hmod, decide_true, Bool.true_and, Bool.and_eq_true, Bool.not_eq_true',
      decide_eq_false_iff_not]
    constructor
    · rintro ⟨hk, h, hne⟩
      exact ⟨by omega, hk, h⟩
    · rintro ⟨hne, hk, h⟩
      exact ⟨hk, h, by omega⟩
  · rw [if_neg hrow]
    constructor
    · rintro h
      refine ⟨fun he => hrow (by rw [he, b.toNat_div]), h⟩
    · exact fun h => h.2

/-- The mask that `unset` applies to `sparse`: every row below `r` goes, and `r` itself
when its word became zero. -/
theorem getLsbD_mask {z : Bool} {r k : ℕ} (hk : k < 64) :
    ((~~~(if z = true then 1#64 else 0#64)) <<< r).getLsbD k
      = (decide (r ≤ k) && !(z && decide (k = r))) := by
  rw [BitVec.getLsbD_shiftLeft, BitVec.getLsbD_not]
  rcases Nat.lt_or_ge k r with hkr | hkr
  · simp [hkr, Nat.not_le.mpr hkr]
  · have h64 : k - r < 64 := by omega
    have hz : k - r = 0 ↔ k = r := by omega
    have hnlt : ¬ k < r := by omega
    cases z <;> simp [hk, hkr, h64, hz, hnlt]

theorem sparse_erased {k : ℕ} (hk : k < 64) : (s.erased b).sparse.getLsbD k =
    (s.sparse.getLsbD k && (decide (b.row.val ≤ k) &&
      !(decide (s.word b.row &&& ~~~(1#64 <<< b.col.val) = 0) && decide (k = b.row.val)))) := by
  have hmask := getLsbD_mask
    (z := decide (s.word b.row &&& ~~~(1#64 <<< b.col.val) = 0)) (r := b.row.val) hk
  simp only [decide_eq_true_eq] at hmask
  simp only [erased, BitVec.getLsbD_and]
  rw [hmask]

/-- No block of the set lies in a row below that of `b`. -/
def Lowest (s : BitSet n) (b : Bit) : Prop :=
  ∀ k ∈ s.elems, b.row.val ≤ k / 64

theorem Lowest.dense_eq_zero (h : s.Lowest b) {i : Fin n} (hi : i.val < b.row.val) :
    s.dense i = 0 := by
  rw [BitSet.dense_eq_zero]
  intro k hk hki
  have := h k hk
  omega

/-- Unsetting a member leaves a consistent bitset exactly if no row below is in use. -/
theorem validate_erased_iff (hn : n ≤ 64) (hv : s.validate = true)
    (hmem : b.toNat ∈ s.elems) : (s.erased b).validate = true ↔ s.Lowest b := by
  obtain ⟨hcount, hsparse, hhigh⟩ := validate_iff.mp hv
  have hpos := b.toNat_eq
  have hcol := b.col.isLt
  have hrow : b.row.val < n := by
    have := (mem_elems.mp hmem).1
    omega
  constructor
  · -- the bit of a row below is gone from `sparse`, so the row must be empty
    intro hvalid k hk
    by_contra hlt
    have hkn : k / 64 < n := by
      have := (mem_elems.mp hk).1
      omega
    obtain ⟨-, hsparse', -⟩ := validate_iff.mp hvalid
    have hbit := hsparse' ⟨k / 64, hkn⟩
    rw [sparse_erased (by omega), decide_eq_false hlt, Bool.false_and, Bool.and_false] at hbit
    have hzero : (s.erased b).dense ⟨k / 64, hkn⟩ = 0 := by simpa using hbit.symm
    have hkeep : k ∈ (s.erased b).elems := by
      rw [elems_erased hrow, Finset.mem_erase]
      exact ⟨fun he => hlt (by rw [he, b.toNat_div]), hk⟩
    exact BitSet.dense_eq_zero.mp hzero k hkeep rfl
  · intro hlow
    refine validate_iff.mpr ⟨?_, ?_, ?_⟩
    · rw [elems_erased hrow, Finset.card_erase_of_mem hmem, hcount]
      rfl
    · intro i
      have hi := i.isLt
      rw [sparse_erased (by omega), hsparse i]
      simp only [erased, setWord]
      rcases Nat.lt_trichotomy i.val b.row.val with hlt | heq | hgt
      · simp [hlow.dense_eq_zero hlt, Nat.not_le.mpr hlt, Nat.ne_of_lt hlt]
      · have hd : s.dense i ≠ 0 := by
          rw [Ne, BitSet.dense_eq_zero]
          intro h
          exact h _ hmem (by rw [b.toNat_div, heq])
        rw [beq_eq_false_iff_ne.mpr hd, if_pos heq, Bool.beq_eq_decide_eq]
        simp [heq]
      · simp [Nat.le_of_lt hgt, Nat.ne_of_gt hgt]
    · intro k hk hnk
      rw [sparse_erased hk, hhigh k hk hnk, Bool.false_and]

theorem lowest_peek (hv : s.validate = true) (hne : s.elems.Nonempty) :
    s.Lowest s.peekUnchecked := by
  intro k hk
  have hmin := (peek_spec hv hne).2.2 k hk
  have := s.peekUnchecked.toNat_eq
  omega

theorem validate_erased_peek (hn : n ≤ 64) (hv : s.validate = true) (hne : s.elems.Nonempty) :
    (s.erased s.peekUnchecked).validate = true :=
  (validate_erased_iff hn hv (peek_spec hv hne).2.1).mpr (lowest_peek hv hne)

/-- Unsetting a member writes `erased`, unless the check after it fails. -/
theorem unset_eq (v : Bool) (hv : s.validate = true) (hmem : b.toNat ∈ s.elems) :
    s.unset v b = checked v (s.erased b) := by
  have hbit := (mem_elems.mp hmem).2
  rw [Bit.toNat_div, Bit.toNat_mod] at hbit
  have hdouble : ¬ ((v && (s.word b.row &&& (1#64 <<< b.col.val) == 0)) = true) := by
    rw [and_bit_eq_zero b.col.isLt, hbit]
    simp
  have hcount : s.count ≠ 0 := by
    rw [← (validate_iff.mp hv).1]
    exact Finset.card_ne_zero_of_mem hmem
  simp only [unset]
  rw [if_neg hdouble, if_neg hcount]
  rfl

theorem checked_of_validate {v : Bool} (hv : s.validate = true) : checked v s = .ok s := by
  simp [checked, hv]

/-- Unsetting the lowest block succeeds and removes it. -/
theorem unset_peek_eq (v : Bool) (hn : n ≤ 64) (hv : s.validate = true) (hne : s.elems.Nonempty) :
    s.unset v s.peekUnchecked = .ok (s.erased s.peekUnchecked) := by
  rw [unset_eq v hv (peek_spec hv hne).2.1, checked_of_validate (validate_erased_peek hn hv hne)]

/-! ### `unset` after `set` -/

theorem eq_of_parts {s s' : BitSet n} (hcount : s.count = s'.count)
    (hsparse : s.sparse = s'.sparse) (hdense : s.dense = s'.dense) : s = s' := by
  cases s
  cases s'
  simp_all

/-- The count and the word come back; the summary does if no row below is in use. -/
theorem erased_inserted_iff (hn : n ≤ 64) (hv : s.validate = true) (hrow : b.row.val < n)
    (hnew : b.toNat ∉ s.elems) : (s.inserted b).erased b = s ↔ s.Lowest b := by
  obtain ⟨-, hsparse, hhigh⟩ := validate_iff.mp hv
  have hcol := b.col.isLt
  have hpos := b.toNat_eq
  have hbit : (s.word b.row).getLsbD b.col = false := by
    rw [mem_elems, not_and, b.toNat_div, b.toNat_mod] at hnew
    simpa using hnew (by omega)
  have hword : (s.inserted b).word b.row = s.word b.row ||| (1#64 <<< b.col.val) := by
    rw [inserted, word_setWord hrow, if_pos rfl]
  have hback : (s.word b.row ||| (1#64 <<< b.col.val)) &&& ~~~(1#64 <<< b.col.val)
      = s.word b.row := by
    refine BitVec.eq_of_getLsbD_eq fun k hk => ?_
    rw [BitVec.getLsbD_and, BitVec.getLsbD_or, BitVec.getLsbD_not, getLsbD_bit hcol]
    by_cases hkc : k = b.col.val
    · rw [hkc, hbit]
      simp
    · simp [hkc, hk]
  have hdense : ((s.inserted b).erased b).dense = s.dense := by
    funext i
    simp only [erased, setWord, hword, hback]
    by_cases hi : i.val = b.row.val
    · rw [if_pos hi, word, dif_pos hrow]
      exact congrArg s.dense (Fin.ext hi.symm)
    · rw [if_neg hi]
      exact if_neg hi
  have hsp : ∀ k, k < 64 → ((s.inserted b).erased b).sparse.getLsbD k
      = (s.sparse.getLsbD k && decide (b.row.val ≤ k)) := by
    intro k hk
    rw [sparse_erased hk, hword, hback, inserted, BitVec.getLsbD_or, getLsbD_bit b.row.isLt]
    by_cases hkr : k = b.row.val
    · -- the row of `b` is marked exactly if its word was not zero
      have hmark := hsparse ⟨b.row.val, hrow⟩
      rw [Bool.beq_eq_decide_eq] at hmark
      rw [hkr, hmark]
      simp [word, hrow]
    · simp [hkr]
  constructor
  · intro heq k hk
    by_contra hlt
    have hkn : k / 64 < n := by
      have := (mem_elems.mp hk).1
      omega
    have hmark : s.sparse.getLsbD (k / 64) = true := by
      rw [hsparse ⟨k / 64, hkn⟩]
      have hd : s.dense ⟨k / 64, hkn⟩ ≠ 0 := fun hz => BitSet.dense_eq_zero.mp hz k hk rfl
      simpa using hd
    have hgone := hsp (k / 64) (by omega)
    rw [heq, hmark, decide_eq_false hlt] at hgone
    cases hgone
  · intro hlow
    have hsame : ((s.inserted b).erased b).sparse = s.sparse := by
      refine BitVec.eq_of_getLsbD_eq fun k hk => ?_
      rw [hsp k hk]
      by_cases hkr : b.row.val ≤ k
      · simp [hkr]
      · have hz := hlow.dense_eq_zero (i := ⟨k, by omega⟩) (by simpa using hkr)
        have hmark := hsparse ⟨k, by omega⟩
        simp only [hz] at hmark
        simp [hkr, hmark]
    exact eq_of_parts rfl hsame hdense

/-- **`unset` undoes `set`**, and unsetting a member leaves a consistent bitset for the set
without it, exactly for the bits with no row below in use. -/
theorem unset_set_iff {b : Bit} (hn : n ≤ 64) (hv : s.validate = true) (v : Bool)
    (hrow : b.row.val < n) :
    (b.toNat ∉ s.elems →
      ((s.set v b >>= fun s' => s'.unset v b) = .ok s ↔ ∀ k ∈ s.elems, b.row.val ≤ k / 64)) ∧
    (b.toNat ∈ s.elems →
      ((∃ s', s.unset v b = .ok s' ∧ s'.validate = true ∧ s'.elems = s.elems.erase b.toNat) ↔
        ∀ k ∈ s.elems, b.row.val ≤ k / 64)) := by
  constructor
  · intro hnew
    have hmem : b.toNat ∈ (s.inserted b).elems := by
      rw [elems_inserted hrow]
      exact Finset.mem_insert_self _ _
    have hvalid := validate_inserted hv hrow hnew
    have hrun : (s.set v b >>= fun s' => s'.unset v b)
        = checked v ((s.inserted b).erased b) := by
      rw [set_eq v hv hrow hnew]
      exact unset_eq v hvalid hmem
    rw [hrun]
    refine Iff.trans ?_ (erased_inserted_iff hn hv hrow hnew)
    constructor
    · intro h
      unfold checked at h
      split_ifs at h
      exact Except.ok.inj h
    · intro h
      rw [h, checked_of_validate hv]
  · intro hmem
    rw [unset_eq v hv hmem]
    refine Iff.trans ?_ (validate_erased_iff hn hv hmem)
    constructor
    · rintro ⟨s', h, hvalid, -⟩
      unfold checked at h
      split_ifs at h
      rwa [Except.ok.inj h]
    · exact fun h => ⟨_, checked_of_validate h, h, elems_erased hrow⟩

/-- Block 64 goes in above the empty first row, and comes out again. -/
theorem unset_set_iff_second_row : (zeroed : BitSet 2).validate = true ∧
    ((zeroed : BitSet 2).set true (.fromLoose 64) >>= fun s' => s'.unset true (.fromLoose 64))
      = .ok zeroed := by
  have hv : (zeroed : BitSet 2).validate = true := by decide
  have hiff := unset_set_iff (b := .fromLoose 64) (by decide) hv true (by decide)
  exact ⟨hv, (hiff.1 (by decide)).mpr (by decide)⟩

/-- With block 0 in the set, setting and unsetting block 64 clears the mark of the first
row. -/
theorem unset_set_loses_row : ((zeroed : BitSet 2).fill 1).validate = true ∧
    (64 : ℕ) ∉ ((zeroed : BitSet 2).fill 1).elems ∧
    ∃ s', (((zeroed : BitSet 2).fill 1).set false (.fromLoose 64) >>= fun s' =>
        s'.unset false (.fromLoose 64)) = .ok s' ∧
      s' ≠ (zeroed : BitSet 2).fill 1 ∧ s'.sparse = 0 ∧ s'.elems = {0} ∧ s'.validate = false := by
  refine ⟨by decide, by decide, _, rfl, fun h => ?_, by decide, by decide, by decide⟩
  exact absurd (congrArg (fun s : BitSet 2 => s.sparse) h) (by decide)

/-! ### The operations of a slab

A bitset that is filled, given absent blocks and asked for its lowest one is the finite set
it stands for. -/

/-- What the allocator does with the bitset of a slab. -/
inductive Op
  | fill (c : ℕ)
  | set (b : Bit)
  | take

namespace Op

/-- The operation on the bitset. -/
def apply (v : Bool) (s : BitSet n) : Op → Except Panic (BitSet n)
  | .fill c => .ok (s.fill c)
  | .set b => s.set v b
  | .take => s.unset v s.peekUnchecked

/-- The operation on a set of block numbers. -/
def applySet (A : Finset ℕ) : Op → Finset ℕ
  | .fill c => Finset.range c
  | .set b => insert b.toNat A
  | .take => if h : A.Nonempty then A.erase (A.min' h) else A

/-- When the allocator does it. -/
def Legal (n : ℕ) (A : Finset ℕ) : Op → Prop
  | .fill c => c ≤ 64 * n
  | .set b => b.row.val < n ∧ b.toNat ∉ A
  | .take => A.Nonempty

/-- Each of the operations is done when the allocator does it. -/
def AllLegal (n : ℕ) : Finset ℕ → List Op → Prop
  | _, [] => True
  | A, op :: ops => op.Legal n A ∧ AllLegal n (op.applySet A) ops

instance (n : ℕ) (A : Finset ℕ) (op : Op) : Decidable (op.Legal n A) :=
  match op with
  | .fill c => inferInstanceAs (Decidable (c ≤ 64 * n))
  | .set b => inferInstanceAs (Decidable (b.row.val < n ∧ b.toNat ∉ A))
  | .take => inferInstanceAs (Decidable A.Nonempty)

end Op

/-- The three parts of a bitset agree on the set it stands for. -/
structure Refines (s : BitSet n) (A : Finset ℕ) : Prop where
  elems : s.elems = A
  len : s.len = A.card
  sparse : ∀ i : Fin n, s.sparse.getLsbD i = true ↔ s.dense i ≠ 0
  high : ∀ k, n ≤ k → s.sparse.getLsbD k = false
  peek : ∀ h : A.Nonempty, s.peekUnchecked.toNat = A.min' h ∧ s.peekUnchecked.row.val < n

theorem peek_eq_min (hv : s.validate = true) (hne : s.elems.Nonempty) :
    s.peekUnchecked.toNat = s.elems.min' hne := by
  obtain ⟨-, hmem, hmin⟩ := peek_spec hv hne
  exact le_antisymm (Finset.le_min' _ _ _ hmin) (Finset.min'_le _ _ hmem)

theorem refines_of_validate (hv : s.validate = true) : s.Refines s.elems where
  elems := rfl
  len := len_eq_card hv
  sparse i := by
    rw [(validate_iff.mp hv).2.1 i]
    simp
  high k hk := by
    by_cases h64 : k < 64
    · exact (validate_iff.mp hv).2.2 k h64 hk
    · exact BitVec.getLsbD_of_ge _ _ (by omega)
  peek hne := ⟨peek_eq_min hv hne, (peek_spec hv hne).1⟩

/-- One operation succeeds, and does to the bitset what it does to the set. -/
theorem validate_apply (v : Bool) (hn : n ≤ 64) (hv : s.validate = true) {op : Op}
    (hl : op.Legal n s.elems) :
    ∃ s', op.apply v s = .ok s' ∧ s'.validate = true ∧ s'.elems = op.applySet s.elems := by
  cases op with
  | fill c => exact ⟨_, rfl, validate_fill hn hl, elems_fill hl⟩
  | set b =>
    obtain ⟨hrow, hnew⟩ := hl
    exact ⟨_, set_eq v hv hrow hnew, validate_inserted hv hrow hnew, elems_inserted hrow⟩
  | take =>
    have hne : s.elems.Nonempty := hl
    refine ⟨_, unset_peek_eq v hn hv hne, validate_erased_peek hn hv hne, ?_⟩
    rw [elems_erased (peek_spec hv hne).1, Op.applySet, dif_pos hne, peek_eq_min hv hne]

theorem validate_run (v : Bool) (hn : n ≤ 64) {ops : List Op} (hv : s.validate = true)
    (hl : Op.AllLegal n s.elems ops) : ∃ s', ops.foldlM (Op.apply v) s = .ok s' ∧
      s'.validate = true ∧ s'.elems = ops.foldl Op.applySet s.elems := by
  induction ops generalizing s with
  | nil => exact ⟨s, rfl, hv, rfl⟩
  | cons op ops ih =>
    obtain ⟨s₁, hop, hv₁, helems⟩ := validate_apply v hn hv hl.1
    obtain ⟨s', hrun, hv', helems'⟩ := ih hv₁ (helems ▸ hl.2)
    refine ⟨s', ?_, hv', ?_⟩
    · rw [List.foldlM_cons, hop]
      exact hrun
    · rw [helems', helems]
      rfl

/-- **The bitset refines a finite set**, whatever was in its memory before it was filled. -/
theorem refines_run (v : Bool) (hn : n ≤ 64) (s : BitSet n) {c : ℕ} (hc : c ≤ 64 * n)
    {ops : List Op} (hl : Op.AllLegal n (Finset.range c) ops) :
    ∃ s', (Op.fill c :: ops).foldlM (Op.apply v) s = .ok s' ∧
      s'.Refines (ops.foldl Op.applySet (Finset.range c)) := by
  have helems := elems_fill (s := s) hc
  obtain ⟨s', hrun, hv, hset⟩ := validate_run v hn (validate_fill (s := s) hn hc) (helems ▸ hl)
  refine ⟨s', hrun, ?_⟩
  rw [helems] at hset
  exact hset ▸ refines_of_validate hv

/-- Two blocks go out, and the first comes back. -/
theorem refines_run_returned : ∃ s' : BitSet 1,
    [Op.fill 3, .take, .take, .set (.fromLoose 0)].foldlM (Op.apply true) (zeroed : BitSet 1)
      = .ok s' ∧ s'.Refines {0, 2} := by
  have hl : Op.AllLegal 1 (Finset.range 3) [.take, .take, .set (.fromLoose 0)] :=
    ⟨by decide, by decide, ⟨by decide, by decide⟩, trivial⟩
  obtain ⟨s', hrun, href⟩ := refines_run true (by decide) (zeroed : BitSet 1) (by decide) hl
  have hset : [Op.take, .take, .set (.fromLoose 0)].foldl Op.applySet (Finset.range 3)
      = {0, 2} := by decide
  exact ⟨s', hrun, hset ▸ href⟩

end BitSet

end Cxlalloc
