/-
  Lob.Base.LogLinear — numbers in buckets of about constant relative width.

  Below `2 ^ (m + 1)` every number has a bucket of its own; each octave above is cut into
  `2 ^ m` buckets of equal width. `index m` numbers the buckets, `lower m` and `upper m`
  are a bucket's ends: a number lies in its bucket (`lower_index_le`, `le_upper_index`),
  numbering keeps the order (`index_mono`), the buckets of the first octaves are the first
  indices (`index_lt_iff`), and the upper end exceeds a member by a fraction of at most
  `1 / 2 ^ m` (`upper_index_le`). The buckets tile the numbers: every index is that of its
  lower end (`index_lower`), and a bucket starts where the one before ends
  (`upper_add_one`).
-/

import Mathlib.Data.Nat.Bitwise
import Mathlib.Data.Nat.Log

namespace Lob.Base.LogLinear

/-- How often `v` is halved to have `m + 1` bits. -/
def octave (m v : Nat) : Nat := v.log2 - m

def index (m v : Nat) : Nat := octave m v * 2 ^ m + v / 2 ^ octave m v

/-- The octave of a bucket; the first two runs of `2 ^ m` indices are both octave 0. -/
def level (m i : Nat) : Nat := i / 2 ^ m - 1

def lower (m i : Nat) : Nat := if i < 2 ^ m then i else (i % 2 ^ m + 2 ^ m) * 2 ^ level m i

def upper (m i : Nat) : Nat := lower m i + (2 ^ level m i - 1)

variable {m v w : Nat}

/-! ## The octave of a number -/

theorem octave_eq_zero (h : v < 2 ^ (m + 1)) : octave m v = 0 := by
  unfold octave
  by_cases hv : v = 0
  · subst hv; simp
  · have := (Nat.log2_lt hv).mpr h
    omega

theorem log2_of_octave_pos (h : 0 < octave m v) : v.log2 = m + octave m v ∧ v ≠ 0 := by
  unfold octave at h ⊢
  refine ⟨by omega, ?_⟩
  intro hv
  subst hv
  simp at h

/-- Halved `octave m v` times, a number beyond the first octave has exactly `m + 1` bits. -/
theorem scaled_bounds (h : 0 < octave m v) : 2 ^ m ≤ v / 2 ^ octave m v ∧ v / 2 ^ octave m v < 2 ^ (m + 1) := by
  obtain ⟨hlog, hv⟩ := log2_of_octave_pos h
  obtain ⟨hlo, hhi⟩ := (Nat.log2_eq_iff hv).mp hlog
  constructor
  · rw [Nat.le_div_iff_mul_le (Nat.two_pow_pos _), ← Nat.pow_add]
    exact hlo
  · rw [Nat.div_lt_iff_lt_mul (Nat.two_pow_pos _), ← Nat.pow_add]
    rw [show m + 1 + octave m v = m + octave m v + 1 by omega]
    exact hhi

theorem scaled_lt (m v : Nat) : v / 2 ^ octave m v < 2 ^ (m + 1) := by
  by_cases h : 0 < octave m v
  · exact (scaled_bounds h).2
  · have h0 : octave m v = 0 := by omega
    rw [h0, Nat.pow_zero, Nat.div_one]
    unfold octave at h0
    by_cases hv : v = 0
    · subst hv; exact Nat.two_pow_pos _
    · exact (Nat.log2_lt hv).mp (by omega)

theorem octave_mono (h : v ≤ w) : octave m v ≤ octave m w := by
  unfold octave
  by_cases hv : v = 0
  · subst hv; simp
  · have hw : w ≠ 0 := by omega
    have : v.log2 ≤ w.log2 := (Nat.le_log2 hw).mpr (Nat.le_trans (Nat.log2_self_le hv) h)
    omega

/-- Setting the low `m + 1` bits leaves the leading bit, and makes it bit `m` at least. -/
theorem octave_eq_log2_or (m v : Nat) : octave m v = (v ||| (2 ^ (m + 1) - 1)).log2 - m := by
  have hmask : 2 ^ (m + 1) - 1 < 2 ^ (m + 1) := Nat.sub_lt (Nat.two_pow_pos _) (by decide)
  have hone : 2 ^ m ≤ 2 ^ (m + 1) - 1 := by
    have := Nat.two_pow_pos m
    rw [Nat.pow_succ]
    omega
  by_cases h : v < 2 ^ (m + 1)
  · have hlt : v ||| (2 ^ (m + 1) - 1) < 2 ^ (m + 1) := Nat.or_lt_two_pow h hmask
    have hge : 2 ^ m ≤ v ||| (2 ^ (m + 1) - 1) := Nat.le_trans hone Nat.right_le_or
    have hpos := Nat.two_pow_pos m
    rw [octave_eq_zero h, (Nat.log2_eq_iff (by omega)).mpr ⟨hge, hlt⟩]
    omega
  · have hv : v ≠ 0 := by
      intro h0
      rw [h0] at h
      exact h (Nat.two_pow_pos _)
    have hle : v ≤ v ||| (2 ^ (m + 1) - 1) := Nat.left_le_or
    have hlog : m + 1 ≤ v.log2 := (Nat.le_log2 hv).mpr (Nat.le_of_not_lt h)
    have hmask' : 2 ^ (m + 1) - 1 < 2 ^ (v.log2 + 1) :=
      Nat.lt_of_lt_of_le hmask (Nat.pow_le_pow_right (by decide) (by omega))
    have hlt : v ||| (2 ^ (m + 1) - 1) < 2 ^ (v.log2 + 1) := Nat.or_lt_two_pow Nat.lt_log2_self hmask'
    have hge : 2 ^ v.log2 ≤ v ||| (2 ^ (m + 1) - 1) := Nat.le_trans (Nat.log2_self_le hv) hle
    unfold octave
    rw [(Nat.log2_eq_iff (n := v ||| (2 ^ (m + 1) - 1)) (by omega)).mpr ⟨hge, hlt⟩]

/-! ## The bucket of a number -/

theorem level_index (m v : Nat) : level m (index m v) = octave m v := by
  by_cases h : 0 < octave m v
  · obtain ⟨hlo, hhi⟩ := scaled_bounds h
    have hdiv : index m v / 2 ^ m = octave m v + 1 := by
      unfold index
      rw [Nat.div_eq_iff (Nat.two_pow_pos m), Nat.add_mul]
      rw [Nat.pow_succ] at hhi
      omega
    unfold level
    omega
  · have h0 : octave m v = 0 := by omega
    have hlt := scaled_lt m v
    have hdiv : index m v / 2 ^ m < 2 := by
      unfold index
      rw [Nat.div_lt_iff_lt_mul (Nat.two_pow_pos m)]
      rw [Nat.pow_succ] at hlt
      rw [h0] at hlt ⊢
      omega
    unfold level
    omega

/-- A bucket starts at a multiple of its width. -/
theorem lower_index (m v : Nat) : lower m (index m v) = v / 2 ^ octave m v * 2 ^ octave m v := by
  unfold lower
  rw [level_index]
  by_cases h : 0 < octave m v
  · obtain ⟨hlo, hhi⟩ := scaled_bounds h
    have hge : 2 ^ m ≤ octave m v * 2 ^ m := Nat.le_mul_of_pos_left _ h
    have hmod : index m v % 2 ^ m = v / 2 ^ octave m v - 2 ^ m := by
      unfold index
      rw [Nat.mul_add_mod_self_right, Nat.mod_eq_sub_mod hlo, Nat.mod_eq_of_lt]
      rw [Nat.pow_succ] at hhi
      omega
    rw [if_neg (by unfold index; omega), hmod, Nat.sub_add_cancel hlo]
  · have h0 : octave m v = 0 := by omega
    have hlt := scaled_lt m v
    rw [h0, Nat.pow_zero, Nat.div_one, Nat.pow_succ] at hlt
    have hi : index m v = v := by unfold index; rw [h0]; simp
    rw [hi, h0, Nat.pow_zero, Nat.div_one, Nat.mul_one]
    split
    · simp
    · rename_i hge
      have hge' : 2 ^ m ≤ v := Nat.le_of_not_lt hge
      rw [Nat.mod_eq_sub_mod hge', Nat.mod_eq_of_lt (by omega), Nat.sub_add_cancel hge']
      simp

theorem lower_index_le (m v : Nat) : lower m (index m v) ≤ v := by
  rw [lower_index]
  exact Nat.div_mul_le_self v _

theorem upper_index (m v : Nat) :
    upper m (index m v) = v / 2 ^ octave m v * 2 ^ octave m v + (2 ^ octave m v - 1) := by
  unfold upper
  rw [lower_index, level_index]

theorem le_upper_index (m v : Nat) : v ≤ upper m (index m v) := by
  rw [upper_index]
  have hpos := Nat.two_pow_pos (octave m v)
  have hmod := Nat.mod_lt v hpos
  have hdiv := Nat.div_add_mod' v (2 ^ octave m v)
  omega

/-- The upper end of its bucket exceeds a number by a fraction of at most `1 / 2 ^ m`. -/
theorem upper_index_le (m v : Nat) : upper m (index m v) * 2 ^ m ≤ v * (2 ^ m + 1) := by
  rw [upper_index, Nat.mul_add, Nat.mul_one, Nat.add_mul]
  have hle : v / 2 ^ octave m v * 2 ^ octave m v * 2 ^ m ≤ v * 2 ^ m :=
    Nat.mul_le_mul_right _ (Nat.div_mul_le_self v _)
  have hwidth : (2 ^ octave m v - 1) * 2 ^ m ≤ v := by
    by_cases h : 0 < octave m v
    · obtain ⟨hlog, hv⟩ := log2_of_octave_pos h
      have hself := Nat.log2_self_le hv
      rw [hlog, Nat.add_comm, Nat.pow_add] at hself
      exact Nat.le_trans (Nat.mul_le_mul_right _ (Nat.sub_le _ _)) hself
    · have h0 : octave m v = 0 := by omega
      rw [h0]
      simp
  omega

/-! ## The order of the buckets -/

theorem index_mono (h : v ≤ w) : index m v ≤ index m w := by
  have hoct := octave_mono (m := m) h
  by_cases heq : octave m v = octave m w
  · unfold index
    rw [heq]
    have := Nat.div_le_div_right (c := 2 ^ octave m w) h
    omega
  · have hlt : octave m v + 1 ≤ octave m w := by omega
    obtain ⟨hlo, -⟩ := scaled_bounds (m := m) (v := w) (by omega)
    have hhi := scaled_lt m v
    have hmul : (octave m v + 1) * 2 ^ m ≤ octave m w * 2 ^ m := Nat.mul_le_mul_right _ hlt
    rw [Nat.pow_succ] at hhi
    rw [Nat.add_mul, Nat.one_mul] at hmul
    unfold index
    omega

/-- The numbers below a power of two fill the first indices. -/
theorem index_lt_iff (B : Nat) : index m v < (B + 1 + 1) * 2 ^ m ↔ v < 2 ^ (m + 1 + B) := by
  have hscaled := scaled_lt m v
  rw [Nat.pow_succ] at hscaled
  constructor
  · intro h
    by_contra hge
    have hv : v ≠ 0 := by
      intro h0
      exact hge (by rw [h0]; exact Nat.two_pow_pos _)
    have hlog : m + 1 + B ≤ v.log2 := (Nat.le_log2 hv).mpr (Nat.le_of_not_lt hge)
    have hoct : B + 1 ≤ octave m v := by unfold octave; omega
    obtain ⟨hlo, -⟩ := scaled_bounds (m := m) (v := v) (by omega)
    have hmul : (B + 1) * 2 ^ m ≤ octave m v * 2 ^ m := Nat.mul_le_mul_right _ hoct
    rw [Nat.add_mul, Nat.one_mul] at h
    unfold index at h
    omega
  · intro h
    have hoct : octave m v ≤ B := by
      unfold octave
      by_cases hv : v = 0
      · subst hv; simp
      · have := (Nat.log2_lt hv).mpr h
        omega
    have hmul : octave m v * 2 ^ m ≤ B * 2 ^ m := Nat.mul_le_mul_right _ hoct
    rw [Nat.add_mul, Nat.add_mul, Nat.one_mul]
    unfold index
    omega

/-! ## The buckets side by side -/

/-- An index is below the first run's end, or a position `r` in the run of octave `q`. -/
theorem index_cases (m i : Nat) : i < 2 ^ m ∨ ∃ q r, r < 2 ^ m ∧ i = (q + 1) * 2 ^ m + r := by
  have hpos := Nat.two_pow_pos m
  by_cases h : i < 2 ^ m
  · exact Or.inl h
  · have hdiv : 1 ≤ i / 2 ^ m := (Nat.le_div_iff_mul_le hpos).mpr (by omega)
    refine Or.inr ⟨i / 2 ^ m - 1, i % 2 ^ m, Nat.mod_lt i hpos, ?_⟩
    rw [Nat.sub_add_cancel hdiv]
    exact (Nat.div_add_mod' i (2 ^ m)).symm

theorem level_first {i : Nat} (h : i < 2 ^ m) : level m i = 0 := by
  unfold level
  rw [Nat.div_eq_of_lt h]

theorem level_run {q r : Nat} (h : r < 2 ^ m) : level m ((q + 1) * 2 ^ m + r) = q := by
  unfold level
  rw [Nat.mul_comm, Nat.mul_add_div (Nat.two_pow_pos m), Nat.div_eq_of_lt h]
  omega

theorem lower_first {i : Nat} (h : i < 2 ^ m) : lower m i = i := if_pos h

theorem lower_run {q r : Nat} (h : r < 2 ^ m) : lower m ((q + 1) * 2 ^ m + r) = (r + 2 ^ m) * 2 ^ q := by
  have hge : 2 ^ m ≤ (q + 1) * 2 ^ m := Nat.le_mul_of_pos_left _ (by omega)
  unfold lower
  rw [if_neg (by omega), level_run h, Nat.mul_add_mod_self_right, Nat.mod_eq_of_lt h]

/-- A bucket starts where the one before ends. -/
theorem upper_add_one (m i : Nat) : upper m i + 1 = lower m (i + 1) := by
  have hpos := Nat.two_pow_pos m
  unfold upper
  obtain h | ⟨q, r, hr, rfl⟩ := index_cases m i
  · rw [level_first h, lower_first h]
    by_cases hnext : i + 1 < 2 ^ m
    · rw [lower_first hnext]
      omega
    · -- the end of the first run is the start of the next, of the same octave
      have hi : i + 1 = (0 + 1) * 2 ^ m + 0 := by omega
      rw [hi, lower_run hpos]
      omega
  · have hwidth := Nat.two_pow_pos q
    rw [level_run hr, lower_run hr, Nat.add_assoc (_ * 2 ^ m) r 1]
    by_cases hnext : r + 1 < 2 ^ m
    · rw [lower_run hnext, show r + 1 + 2 ^ m = r + 2 ^ m + 1 by omega, Nat.add_mul _ 1, Nat.one_mul]
      omega
    · -- the last bucket of an octave: the next one is twice as wide
      have hi : (q + 1) * 2 ^ m + (r + 1) = (q + 1 + 1) * 2 ^ m + 0 := by
        rw [Nat.add_mul (q + 1) 1]
        omega
      rw [hi, lower_run hpos]
      calc (r + 2 ^ m) * 2 ^ q + (2 ^ q - 1) + 1 = (r + 2 ^ m + 1) * 2 ^ q := by rw [Nat.add_mul _ 1]; omega
        _ = (2 ^ m * 2) * 2 ^ q := by rw [show r + 2 ^ m + 1 = 2 ^ m * 2 by omega]
        _ = (0 + 2 ^ m) * 2 ^ (q + 1) := by rw [Nat.zero_add, Nat.pow_succ, Nat.mul_assoc, Nat.mul_comm 2]

theorem lower_le_upper (m i : Nat) : lower m i ≤ upper m i := Nat.le_add_right _ _

theorem lower_strictMono (m : Nat) : StrictMono (lower m) := by
  apply strictMono_nat_of_lt_succ
  intro i
  have hnext := upper_add_one m i
  have hle := lower_le_upper m i
  omega

/-- Buckets do not overlap. -/
theorem upper_lt_lower {i j : Nat} (h : i < j) : upper m i < lower m j := by
  have hmono : lower m (i + 1) ≤ lower m j := (lower_strictMono m).monotone h
  have hnext := upper_add_one m i
  omega

theorem upper_strictMono (m : Nat) : StrictMono (upper m) := by
  intro i j hij
  exact Nat.lt_of_lt_of_le (upper_lt_lower hij) (lower_le_upper m j)

/-- Every index is used. -/
theorem index_lower (m i : Nat) : index m (lower m i) = i := by
  by_contra hne
  have hlo := lower_index_le m (lower m i)
  have hhi := le_upper_index m (lower m i)
  by_cases hlt : index m (lower m i) < i
  · have := upper_lt_lower (m := m) hlt
    omega
  · have := lower_strictMono m (show i < index m (lower m i) by omega)
    omega

/-- In the first octave a bucket is one number. -/
theorem index_eq_self (h : v < 2 ^ (m + 1)) : index m v = v := by
  unfold index
  rw [octave_eq_zero h]
  simp

theorem width_first {i : Nat} (h : i < 2 ^ (m + 1)) : lower m i = i ∧ upper m i = i := by
  have hi := index_eq_self h
  have hlo := lower_index m i
  have hhi := upper_index m i
  rw [hi, octave_eq_zero h] at hlo hhi
  simp only [Nat.pow_zero, Nat.div_one, Nat.mul_one] at hlo hhi
  omega

/-- A bucket is at most one part in `2 ^ m` of its lower end wide, and one more. -/
theorem width_le (m i : Nat) : 2 ^ level m i ≤ lower m i / 2 ^ m + 1 := by
  obtain h | ⟨q, r, hr, rfl⟩ := index_cases m i
  · rw [level_first h, Nat.pow_zero]
    exact Nat.le_add_left _ _
  · rw [level_run hr, lower_run hr]
    have hle : 2 ^ q ≤ (r + 2 ^ m) * 2 ^ q / 2 ^ m := by
      rw [Nat.le_div_iff_mul_le (Nat.two_pow_pos m), Nat.mul_comm]
      exact Nat.mul_le_mul_right _ (Nat.le_add_left _ _)
    omega

/-! ## Runs of whole octaves -/

theorem level_lt {i B : Nat} (h : i < (B + 1 + 1) * 2 ^ m) : level m i < B + 1 := by
  have : i / 2 ^ m < B + 1 + 1 := (Nat.div_lt_iff_lt_mul (Nat.two_pow_pos m)).mpr h
  unfold level
  omega

/-- A bucket of the first `B + 1` octaves ends below `2 ^ (m + 1 + B)`. -/
theorem upper_lt {i B : Nat} (h : i < (B + 1 + 1) * 2 ^ m) : upper m i < 2 ^ (m + 1 + B) := by
  have hpos := Nat.two_pow_pos (level m i)
  have hlower : lower m i + 2 ^ level m i ≤ 2 ^ (m + 1) * 2 ^ level m i := by
    unfold lower
    split
    · rename_i hi
      have hlevel : level m i = 0 := by
        unfold level
        rw [Nat.div_eq_of_lt hi]
      rw [hlevel, Nat.pow_succ]
      omega
    · have hmod := Nat.mod_lt i (Nat.two_pow_pos m)
      have hle : i % 2 ^ m + 2 ^ m + 1 ≤ 2 ^ (m + 1) := by
        rw [Nat.pow_succ]
        omega
      calc (i % 2 ^ m + 2 ^ m) * 2 ^ level m i + 2 ^ level m i
          = (i % 2 ^ m + 2 ^ m + 1) * 2 ^ level m i := by rw [Nat.add_mul _ 1, Nat.one_mul]
        _ ≤ 2 ^ (m + 1) * 2 ^ level m i := Nat.mul_le_mul_right _ hle
  have hpow : 2 ^ (m + 1) * 2 ^ level m i ≤ 2 ^ (m + 1 + B) := by
    rw [← Nat.pow_add]
    have := level_lt h
    exact Nat.pow_le_pow_right (by decide) (by omega)
  unfold upper
  omega

end Lob.Base.LogLinear
