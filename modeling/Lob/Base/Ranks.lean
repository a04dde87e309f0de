/-
  Lob.Base.Ranks — order statistics, tallies, and how a running count finds a rank.

  `ranked xs t` is the `t`-th smallest of `xs`, ranks counting from 1. `tally n ks` counts
  how often each index below `n` occurs in `ks`; the sum of its first `k` counts is the
  number of indices below `k` (`sum_take_tally`). When a monotone key sorts values into
  the counted indices, the running count reaches `t` exactly at the key of the `t`-th
  smallest value (`reaches_ranked`).
-/

import Mathlib.Data.List.Sort
import Mathlib.Algebra.Order.Ring.Int

namespace Lob.Base.Ranks

variable {α : Type} [LinearOrder α]

/-- The `t`-th smallest, from 1. -/
def ranked (xs : List α) : Nat → Option α
  | 0 => none
  | t + 1 => (xs.insertionSort (· ≤ ·))[t]?

def tally (n : Nat) (ks : List Nat) : List Nat := (List.range n).map fun i => ks.count i

/-! ## Ranks -/

theorem ranked_isSome {xs : List α} {t : Nat} (h1 : 1 ≤ t) (hn : t ≤ xs.length) : ∃ v, ranked xs t = some v := by
  obtain ⟨t, rfl⟩ : ∃ s, t = s + 1 := ⟨t - 1, by omega⟩
  have hlt : t < (xs.insertionSort (· ≤ ·)).length := by rw [List.length_insertionSort]; omega
  exact ⟨_, List.getElem?_eq_getElem hlt⟩

theorem mem_of_ranked {xs : List α} {t : Nat} {v : α} (h : ranked xs t = some v) : v ∈ xs := by
  cases t with
  | zero => cases h
  | succ t => exact (List.perm_insertionSort (· ≤ ·) xs).mem_iff.mp (List.mem_of_getElem? h)

/-- At most `t - 1` elements are smaller than the `t`-th smallest. -/
theorem countP_lt_ranked {xs : List α} {t : Nat} {v : α} (h : ranked xs t = some v) :
    xs.countP (fun x => decide (x < v)) < t := by
  cases t with
  | zero => cases h
  | succ t =>
    obtain ⟨hlt, hv⟩ := List.getElem?_eq_some_iff.mp h
    have hsort := List.pairwise_insertionSort (· ≤ ·) xs
    rw [← (List.perm_insertionSort (· ≤ ·) xs).countP_eq]
    generalize xs.insertionSort (· ≤ ·) = ys at hlt hv hsort
    rw [← List.take_append_drop t ys, List.countP_append]
    have hdrop : (ys.drop t).countP (fun x => decide (x < v)) = 0 := by
      rw [List.countP_eq_zero]
      intro x hx
      obtain ⟨j, hj, rfl⟩ := List.mem_iff_getElem.mp hx
      have hin : t + j < ys.length := by rw [List.length_drop] at hj; omega
      rw [List.getElem_drop, ← hv]
      have hle : ys[t] ≤ ys[t + j] := by
        by_cases h0 : j = 0
        · subst h0; exact le_refl _
        · exact List.pairwise_iff_getElem.mp hsort t (t + j) _ _ (by omega)
      simpa using hle
    have htake : (ys.take t).countP (fun x => decide (x < v)) ≤ t :=
      Nat.le_trans List.countP_le_length (List.length_take_le _ _)
    omega

/-- At least `t` elements are no larger than the `t`-th smallest. -/
theorem le_countP_ranked {xs : List α} {t : Nat} {v : α} (h : ranked xs t = some v) :
    t ≤ xs.countP (fun x => decide (x ≤ v)) := by
  cases t with
  | zero => cases h
  | succ t =>
    obtain ⟨hlt, hv⟩ := List.getElem?_eq_some_iff.mp h
    have hsort := List.pairwise_insertionSort (· ≤ ·) xs
    rw [← (List.perm_insertionSort (· ≤ ·) xs).countP_eq]
    generalize xs.insertionSort (· ≤ ·) = ys at hlt hv hsort
    rw [← List.take_append_drop (t + 1) ys, List.countP_append]
    have htake : (ys.take (t + 1)).countP (fun x => decide (x ≤ v)) = (ys.take (t + 1)).length := by
      rw [List.countP_eq_length]
      intro x hx
      obtain ⟨j, hj, rfl⟩ := List.mem_iff_getElem.mp hx
      rw [List.length_take] at hj
      rw [List.getElem_take, ← hv]
      have hle : ys[j] ≤ ys[t] := by
        by_cases h0 : j = t
        · subst h0; exact le_refl _
        · exact List.pairwise_iff_getElem.mp hsort j t _ _ (by omega)
      simpa using hle
    rw [htake, List.length_take]
    omega

/-! ## Tallies -/

@[simp] theorem length_tally (n : Nat) (ks : List Nat) : (tally n ks).length = n := by simp [tally]

theorem tally_nil (n : Nat) : tally n [] = List.replicate n 0 := by
  unfold tally
  rw [List.eq_replicate_iff]
  simp

/-- Counting one more index. -/
theorem modify_tally (n i : Nat) (ks : List Nat) :
    (tally n ks).modify i (· + 1) = tally n (ks ++ [i]) := by
  apply List.ext_getElem
  · simp
  · intro j h1 h2
    simp only [tally, List.getElem_modify, List.getElem_map, List.getElem_range, List.count_append,
      List.count_singleton, beq_iff_eq]
    split <;> omega

theorem sum_take_tally {n k : Nat} (hk : k ≤ n) (ks : List Nat) :
    ((tally n ks).take k).sum = ks.countP (fun i => decide (i < k)) := by
  induction k with
  | zero => simp
  | succ k ih =>
    have hlt : k < (tally n ks).length := by rw [length_tally]; omega
    rw [← List.take_append_getElem hlt, List.sum_append, ih (by omega)]
    have hget : (tally n ks)[k] = ks.count k := by simp [tally]
    rw [hget, List.sum_singleton]
    clear ih hget hlt
    induction ks with
    | nil => simp
    | cons i ks ih =>
      simp only [List.countP_cons, List.count_cons, decide_eq_true_eq, beq_iff_eq]
      have h1 : (if i < k + 1 then 1 else 0) = (if i < k then 1 else 0) + if i = k then 1 else 0 := by
        split_ifs <;> omega
      omega

theorem sum_tally {n : Nat} {ks : List Nat} (h : ∀ k ∈ ks, k < n) : (tally n ks).sum = ks.length := by
  have htake := sum_take_tally (Nat.le_refl n) ks
  rw [List.take_of_length_le (by rw [length_tally])] at htake
  rw [htake, List.countP_eq_length]
  intro k hk
  exact decide_eq_true (h k hk)

/-! ## The running count of a monotone key -/

/-- The running count is short of the rank before the key of the ranked value, and reaches
    it there. -/
theorem reaches_ranked {f : α → Nat} (hf : Monotone f) {n : Nat} {xs : List α} {t : Nat} {v : α} (hv : f v < n)
    (h : ranked xs t = some v) :
    ((tally n (xs.map f)).take (f v)).sum < t ∧ t ≤ ((tally n (xs.map f)).take (f v + 1)).sum := by
  rw [sum_take_tally (by omega), sum_take_tally (by omega), List.countP_map, List.countP_map]
  constructor
  · refine Nat.lt_of_le_of_lt (List.countP_mono_left ?_) (countP_lt_ranked h)
    intro x _ hx
    simp only [Function.comp_apply, decide_eq_true_eq] at hx ⊢
    by_contra hge
    have := hf (not_lt.mp hge)
    omega
  · refine Nat.le_trans (le_countP_ranked h) (List.countP_mono_left ?_)
    intro x _ hx
    simp only [Function.comp_apply, decide_eq_true_eq] at hx ⊢
    have := hf hx
    omega

end Lob.Base.Ranks
