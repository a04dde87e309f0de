/-
  Lob.Base.Bits — words of 64 bits as sets, and scans for the next member.

  A word is read by `getLsbD`. `setIn` and `clearIn` add and drop one member, `topBit` and
  `lowBit` find the largest and the smallest (by counting leading and trailing zeros). A
  scan is a list of candidates; `find_filter` says that finding the first hit of a scan and
  going on from there enumerates the hits, in order.
-/

import Mathlib.Data.List.Basic
import Mathlib.Data.List.Range

namespace Lob.Base.Bits

/-! ## One word -/

def setIn (w : BitVec 64) (i : Nat) : BitVec 64 := w ||| (1#64 <<< i)
def clearIn (w : BitVec 64) (i : Nat) : BitVec 64 := w &&& ~~~(1#64 <<< i)
def topBit (w : BitVec 64) : Nat := 63 - w.clz.toNat
def lowBit (w : BitVec 64) : Nat := w.ctz.toNat

variable {w : BitVec 64} {i j : Nat}

theorem getLsbD_setIn (hj : j < 64) : (setIn w i).getLsbD j = (decide (j = i) || w.getLsbD j) := by
  unfold setIn
  rw [BitVec.getLsbD_or, BitVec.getLsbD_shiftLeft, BitVec.getLsbD_one]
  by_cases h : j = i
  · subst h; simp [hj]
  · simp only [hj, h, decide_true, decide_false, Bool.true_and, Bool.false_or]
    by_cases hlt : j < i
    · simp [hlt]
    · have : j - i ≠ 0 := by omega
      simp [this]

theorem getLsbD_clearIn (hj : j < 64) : (clearIn w i).getLsbD j = (decide (j ≠ i) && w.getLsbD j) := by
  unfold clearIn
  rw [BitVec.getLsbD_and, BitVec.getLsbD_not, BitVec.getLsbD_shiftLeft, BitVec.getLsbD_one]
  by_cases h : j = i
  · subst h; simp [hj]
  · simp only [hj, h, ne_eq, not_false_eq_true, decide_true, Bool.true_and]
    by_cases hlt : j < i
    · simp [hlt]
    · have : j - i ≠ 0 := by omega
      simp [this]

theorem eq_zero_iff : w = 0#64 ↔ ∀ j < 64, w.getLsbD j = false := by
  constructor
  · intro h j _; subst h; simp
  · intro h
    apply BitVec.eq_of_getLsbD_eq
    intro j hj; rw [h j hj]; simp

theorem topBit_spec (h : w ≠ 0#64) :
    topBit w < 64 ∧ w.getLsbD (topBit w) = true ∧ ∀ j < 64, w.getLsbD j = true → j ≤ topBit w := by
  have hset := BitVec.getLsbD_true_clz_of_ne_zero (by decide) h
  refine ⟨by unfold topBit; omega, hset, fun j _ hj => ?_⟩
  have hlt : w.toNat < 2 ^ (64 - w.clz.toNat) := BitVec.toNat_lt_two_pow_sub_clz
  have hge : 2 ^ j ≤ w.toNat := Nat.ge_two_pow_of_testBit hj
  have : j < 64 - w.clz.toNat := (Nat.pow_lt_pow_iff_right (by decide)).mp (Nat.lt_of_le_of_lt hge hlt)
  unfold topBit; omega

theorem topBit_eq_log2 (h : w ≠ 0#64) : topBit w = w.toNat.log2 := by
  have hw : w.toNat ≠ 0 := fun h0 => h (BitVec.eq_of_toNat_eq h0)
  have hge : 2 ^ topBit w ≤ w.toNat := Nat.ge_two_pow_of_testBit (topBit_spec h).2.1
  have hlt : w.toNat < 2 ^ (64 - w.clz.toNat) := BitVec.toNat_lt_two_pow_sub_clz
  have hclz : w.clz.toNat < 64 := BitVec.clz_lt_iff_ne_zero.mpr h
  rw [show 64 - w.clz.toNat = topBit w + 1 by unfold topBit; omega] at hlt
  exact ((Nat.log2_eq_iff hw).mpr ⟨hge, hlt⟩).symm

theorem lowBit_spec (h : w ≠ 0#64) :
    lowBit w < 64 ∧ w.getLsbD (lowBit w) = true ∧ ∀ j < 64, w.getLsbD j = true → lowBit w ≤ j := by
  refine ⟨?_, BitVec.getLsbD_true_ctz_of_ne_zero h, fun j _ hj => ?_⟩
  · have := BitVec.ctz_lt_iff_ne_zero.mpr h
    rw [BitVec.lt_def] at this
    simpa [lowBit] using this
  · by_contra hlt
    rw [BitVec.getLsbD_false_of_lt_ctz (by unfold lowBit at hlt; omega)] at hj
    cases hj

/-! ## Scans -/

variable {after : Nat → List Nat} {p : Nat → Bool}

/-- When the candidates beyond a candidate are the rest of the scan, so are the hits. -/
theorem find_filter (hat : ∀ i x xs, after i = x :: xs → xs = after x) : ∀ {l : List Nat} {j : Nat},
    (∀ x xs, l = x :: xs → xs = after x) → l.find? p = some j → l.filter p = j :: (after j).filter p := by
  intro l
  induction l with
  | nil => intro j _ h; cases h
  | cons x xs ih =>
    intro j hl h
    have hx := hl x xs rfl
    by_cases hp : p x = true
    · rw [List.find?_cons_of_pos hp] at h
      cases h
      rw [List.filter_cons_of_pos hp, hx]
    · rw [List.find?_cons_of_neg (by simpa using hp)] at h
      rw [List.filter_cons_of_neg hp]
      exact ih (fun y ys e => hat x y ys (by rw [← hx]; exact e)) h

theorem find_down {n i : Nat} : (List.range n).reverse.find? p = some i ↔
    i < n ∧ p i = true ∧ ∀ j < n, p j = true → j ≤ i := by
  induction n with
  | zero => simp
  | succ n ih =>
    rw [List.range_succ, List.reverse_append]
    simp only [List.reverse_cons, List.reverse_nil, List.nil_append, List.cons_append]
    by_cases hn : p n = true
    · rw [List.find?_cons_of_pos hn]
      constructor
      · intro h
        cases h
        exact ⟨by omega, hn, fun j hj _ => by omega⟩
      · intro ⟨hi, _, hmax⟩
        have := hmax n (by omega) hn
        rw [show i = n by omega]
    · rw [List.find?_cons_of_neg (by simpa using hn), ih]
      constructor
      · intro ⟨hi, hpi, hmax⟩
        refine ⟨by omega, hpi, fun j hj hpj => ?_⟩
        rcases Nat.lt_succ_iff_lt_or_eq.mp hj with h | h
        · exact hmax j h hpj
        · subst h; exact absurd hpj hn
      · intro ⟨hi, hpi, hmax⟩
        refine ⟨?_, hpi, fun j hj => hmax j (by omega)⟩
        have : i ≠ n := fun e => hn (e ▸ hpi)
        omega

theorem find_up {n i : Nat} : (List.range n).find? p = some i ↔
    i < n ∧ p i = true ∧ ∀ j < n, p j = true → i ≤ j := by
  rw [List.find?_range_eq_some]
  constructor
  · intro ⟨hpi, hi, hmin⟩
    refine ⟨List.mem_range.mp hi, hpi, fun j _ hpj => ?_⟩
    by_contra hlt
    have := hmin j (by omega)
    simp [hpj] at this
  · intro ⟨hi, hpi, hmin⟩
    refine ⟨hpi, List.mem_range.mpr hi, fun j hj => ?_⟩
    by_contra hpj
    have := hmin j (by omega) (by simpa using hpj)
    omega

/-- The candidates below `i`, largest first. -/
theorem down_scan {i x : Nat} {xs : List Nat} (h : (List.range i).reverse = x :: xs) : xs = (List.range x).reverse := by
  cases i with
  | zero => cases h
  | succ n =>
    rw [List.range_succ, List.reverse_append] at h
    simp only [List.reverse_cons, List.reverse_nil, List.nil_append, List.cons_append, List.cons.injEq] at h
    rw [← h.2, ← h.1]

/-- The candidates from `i` up to `n`, smallest first. -/
theorem up_scan {i n x : Nat} {xs : List Nat} (h : List.range' i (n - i) = x :: xs) :
    xs = List.range' (x + 1) (n - (x + 1)) := by
  cases hn : n - i with
  | zero => rw [hn] at h; cases h
  | succ k =>
    rw [hn, List.range'_succ] at h
    simp only [List.cons.injEq] at h
    rw [← h.2, ← h.1]
    congr 1; omega

end Lob.Base.Bits
