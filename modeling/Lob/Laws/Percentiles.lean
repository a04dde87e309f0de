/-
  Lob.Laws.Percentiles — what a percentile says about the recorded values.

  The percentile of a rank lies between the ranked value and that value stretched by one
  part in `sub_half_count_`, exactly when the ranked value is below the range the
  constructor sized (`percentile_bounds_iff`). The counters beyond the range are one, the
  last: a value out of range is counted there, and read back as the end of the range.
-/

import Lob.Telemetry.LatencyHistogram

namespace Lob

open Base Base.Ranks

/-- The percentile of rank `t` is not below `v`, and above it by at most `v / sub_half_count_`. -/
def LatencyHistogram.Reports (h : LatencyHistogram) (t v : Nat) : Prop :=
  v ≤ (h.percentile t).toNat ∧
    (h.percentile t).toNat * h.subHalfCount.toNat ≤ v * (h.subHalfCount.toNat + 1)

open LatencyHistogram

variable {h : LatencyHistogram} {m : Magnitude} {B : Nat} {xs : List (BitVec 64)}

theorem LatencyHistogram.Holds.reports_iff (hh : h.Holds m B xs) {t v : Nat}
    (hv : ranked (xs.map BitVec.toNat) t = some v) : h.Reports t v ↔ v < 2 ^ (m.val + 1 + B) := by
  unfold Reports
  rw [hh.percentile_eq hv, hh.shaped.half]
  constructor
  · intro hrep
    exact Nat.lt_of_le_of_lt hrep.1 (LogLinear.upper_lt (slot_lt m.val B v))
  · intro hlt
    rw [slot_eq_index hlt]
    exact ⟨LogLinear.le_upper_index m.val v, LogLinear.upper_index_le m.val v⟩

/-- The percentile of a rank keeps to the ranked value exactly when the value is in range. -/
theorem percentile_bounds_iff (m : Magnitude) (highest : BitVec 64) (fuel : Nat) (h : LatencyHistogram)
    (hc : construct fuel highest m = some h) (xs : List (BitVec 64)) (t : Nat) (h1 : 1 ≤ t)
    (hn : t ≤ (h.recordAll xs).count) :
    ∃ v, ranked (xs.map BitVec.toNat) t = some v ∧
      ((h.recordAll xs).Reports t v ↔ v < range m highest) := by
  obtain ⟨B, hh, hB⟩ := construct_holds hc xs
  have hlen : t ≤ (xs.map BitVec.toNat).length := by
    rw [List.length_map, ← hh.total]
    exact hn
  obtain ⟨v, hv⟩ := ranked_isSome h1 hlen
  refine ⟨v, hv, ?_⟩
  unfold range
  rw [← hB]
  exact hh.reports_iff hv

/-- At the constructor's defaults, on samples of 0, 1500 and 1 nanoseconds. -/
theorem percentile_bounds_iff_default :
    ∃ h, construct 64 60000000000#64 threeFigures = some h ∧
      ∃ v, ranked ([0#64, 1500#64, 1#64].map BitVec.toNat) 3 = some v ∧
        ((h.recordAll [0#64, 1500#64, 1#64]).Reports 3 v ↔ v < range threeFigures 60000000000#64) := by
  have hsome : (construct 64 60000000000#64 threeFigures).isSome := construct_isSome (by decide) threeFigures
  obtain ⟨h, hc⟩ := Option.isSome_iff_exists.mp hsome
  have hcount : 3 ≤ (h.recordAll [0#64, 1500#64, 1#64]).count := by
    show 3 ≤ h.total + 1 + 1 + 1
    omega
  exact ⟨h, hc, percentile_bounds_iff _ _ 64 h hc [0#64, 1500#64, 1#64] 3 (by decide) hcount⟩

/-- The server's histogram is built for 60 ms. A sample of 100 ms is counted in the last
    bucket, and every percentile then reports 67.108863 ms. -/
theorem slow_sample_underreported :
    ∃ h, construct 64 60000000#64 threeFigures = some h ∧ (h.recordAll [100000000#64]).count = 1 ∧
      ranked ([100000000#64].map BitVec.toNat) 1 = some 100000000 ∧
      ((h.recordAll [100000000#64]).percentile 1).toNat = 67108863 ∧
      ¬ (h.recordAll [100000000#64]).Reports 1 100000000 := by
  have hsome : (construct 64 60000000#64 threeFigures).isSome := construct_isSome (by decide) threeFigures
  obtain ⟨h, hc⟩ := Option.isSome_iff_exists.mp hsome
  obtain ⟨B, hh, hB⟩ := construct_holds hc [100000000#64]
  have hv : ranked ([100000000#64].map BitVec.toNat) 1 = some 100000000 := rfl
  have hclog : Nat.clog 2 (60000000#64).toNat = 26 := by decide
  obtain rfl : B = 15 := by
    have hbits : 10 + 1 + B = max (10 + 1) (Nat.clog 2 (60000000#64).toNat) := hB
    rw [hclog] at hbits
    omega
  have hlast : ((h.recordAll [100000000#64]).percentile 1).toNat = 67108863 := by
    rw [hh.percentile_eq hv]
    decide
  refine ⟨h, hc, hh.total, hv, hlast, ?_⟩
  intro hrep
  have hle := hrep.1
  rw [hlast] at hle
  omega

end Lob
