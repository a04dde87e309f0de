/-
  Lob.Laws.Buckets — the histogram's buckets tile the 64-bit values.

  `counts_index`, `value_from_index` and `highest_equivalent` shift and mask words; for
  every magnitude and every value they compute the bucket of `Lob.Base.LogLinear` and its
  two ends, and no shift, sum or difference on the way leaves 64 bits (`Fits`, over the
  code's own local variables). So the bucket of a value contains it, buckets come in the
  order of the values, one starts where the one before ends, and each is as narrow as the
  code promises (`Tiles`). The counters the constructor makes reach every value in range,
  and the bins read off them are disjoint, ascending and add up to `count()`
  (`buckets_tile`).
-/

import Lob.Telemetry.LatencyHistogram

namespace Lob

open Base

namespace LatencyHistogram

/-! ## The local variables of the code -/

/-- `b` of `counts_index`. -/
def octaveOf (h : LatencyHistogram) (value : BitVec 64) : Nat :=
  let bucket : Int := h.lzcBase - (value ||| h.subMask).clz.toNat
  if bucket < 0 then 0 else bucket.toNat

/-- `bucket` of `value_from_index` and `highest_equivalent`, once it is not negative. -/
def octaveAt (h : LatencyHistogram) (i : BitVec 64) : Nat :=
  let bucket : Int := (i >>> h.subHalfMag).toInt - 1
  if bucket < 0 then 0 else bucket.toNat

/-- `sub` of `value_from_index`, as first set. -/
def subAt (h : LatencyHistogram) (i : BitVec 64) : BitVec 64 := (i &&& (h.subHalfCount - 1)) + h.subHalfCount

theorem valueFromIndex_eq (h : LatencyHistogram) (i : BitVec 64) :
    h.valueFromIndex i =
      (if (i >>> h.subHalfMag).toInt - 1 < 0 then h.subAt i - h.subHalfCount else h.subAt i) <<< h.octaveAt i := by
  unfold valueFromIndex octaveAt subAt
  dsimp only
  split <;> rfl

/-- What `counts_index(v)` computes, and what is computed from its result, stays in 64 bits:
    a shift is by less than 64 and loses no bit, a difference is not negative. The first
    three fields are the code's expressions over these variables. -/
structure Fits (h : LatencyHistogram) (v : BitVec 64) : Prop where
  index : h.countsIndex v =
    BitVec.ofNat 64 (h.octaveOf v + 1) <<< h.subHalfMag + v >>> h.octaveOf v - h.subHalfCount
  lower : h.valueFromIndex (h.countsIndex v) =
    (if (h.countsIndex v >>> h.subHalfMag).toInt - 1 < 0 then h.subAt (h.countsIndex v) - h.subHalfCount
      else h.subAt (h.countsIndex v)) <<< h.octaveAt (h.countsIndex v)
  upper : h.highestEquivalent (h.countsIndex v) =
    h.valueFromIndex (h.countsIndex v) + ((1#64 <<< h.octaveAt (h.countsIndex v)) - 1)
  shift : h.octaveOf v < 64
  base : (h.octaveOf v + 1) * 2 ^ h.subHalfMag < 2 ^ 64
  sum : (h.octaveOf v + 1) * 2 ^ h.subHalfMag + (v >>> h.octaveOf v).toNat < 2 ^ 64
  offset : h.subHalfCount.toNat ≤ (h.octaveOf v + 1) * 2 ^ h.subHalfMag + (v >>> h.octaveOf v).toNat
  sub : (h.countsIndex v &&& (h.subHalfCount - 1)).toNat + h.subHalfCount.toNat < 2 ^ 64
  back : h.octaveAt (h.countsIndex v) < 64
  value : (h.subAt (h.countsIndex v)).toNat * 2 ^ h.octaveAt (h.countsIndex v) < 2 ^ 64
  width : (h.valueFromIndex (h.countsIndex v)).toNat + (2 ^ h.octaveAt (h.countsIndex v) - 1) < 2 ^ 64

/-- The buckets of all 64-bit values. -/
structure Tiles (h : LatencyHistogram) (m : Magnitude) : Prop where
  fits : ∀ v, h.Fits v
  contains : ∀ v, h.valueFromIndex (h.countsIndex v) ≤ v ∧ v ≤ h.highestEquivalent (h.countsIndex v)
  mono : ∀ v w, v ≤ w → h.countsIndex v ≤ h.countsIndex w
  used : ∀ i : BitVec 64, (∃ v, h.countsIndex v = i) ↔ i.toNat < (64 - m.val + 1) * 2 ^ m.val
  next : ∀ v w, (h.countsIndex w).toNat = (h.countsIndex v).toNat + 1 →
    (h.highestEquivalent (h.countsIndex v)).toNat + 1 = (h.valueFromIndex (h.countsIndex w)).toNat
  exact : ∀ v, v.toNat < 2 ^ (m.val + 1) →
    h.valueFromIndex (h.countsIndex v) = v ∧ h.highestEquivalent (h.countsIndex v) = v
  narrow : ∀ v, (h.highestEquivalent (h.countsIndex v)).toNat - (h.valueFromIndex (h.countsIndex v)).toNat + 1 ≤
    (h.valueFromIndex (h.countsIndex v)).toNat / 2 ^ m.val + 1

/-- Bins in the order of their values, no two sharing one, that count every sample recorded. -/
structure Partitions (h : LatencyHistogram) (xs : List (BitVec 64)) : Prop where
  ends : ∀ b ∈ h.bins, b.lo ≤ b.hi
  ascending : h.bins.Pairwise fun a b => a.hi < b.lo
  total : (h.bins.map Bin.count).sum = h.count
  recorded : h.count = xs.length

variable {h : LatencyHistogram} {m : Magnitude} {B : Nat}

/-! ## Indices in use -/

theorem index_lt (m : Magnitude) (v : BitVec 64) : LogLinear.index m.val v.toNat < (64 - m.val + 1) * 2 ^ m.val := by
  have hm := m.le
  have hlt : v.toNat < 2 ^ (m.val + 1 + (63 - m.val)) := by
    rw [show m.val + 1 + (63 - m.val) = 64 by omega]
    exact v.isLt
  rw [show 64 - m.val + 1 = 63 - m.val + 1 + 1 by omega]
  exact (LogLinear.index_lt_iff _).mpr hlt

/-- All of them are words. -/
theorem used_lt {i : Nat} (hi : i < (64 - m.val + 1) * 2 ^ m.val) : i < 2 ^ 64 := by
  have hall := octaves_lt m
  rw [Nat.add_mul] at hall hi
  omega

theorem countsIndex_eq_ofNat (hs : h.Shaped m B) (v : BitVec 64) :
    h.countsIndex v = BitVec.ofNat 64 (LogLinear.index m.val v.toNat) := by
  apply BitVec.eq_of_toNat_eq
  rw [countsIndex_toNat hs, BitVec.toNat_ofNat, Nat.mod_eq_of_lt (used_lt (index_lt m v))]

/-- The lower end of the bucket of a value. -/
theorem lower_toNat (hs : h.Shaped m B) (v : BitVec 64) :
    (h.valueFromIndex (h.countsIndex v)).toNat = LogLinear.lower m.val (LogLinear.index m.val v.toNat) := by
  rw [countsIndex_eq_ofNat hs, valueFromIndex_toNat hs (index_lt m v)]

theorem upper_toNat (hs : h.Shaped m B) (v : BitVec 64) :
    (h.highestEquivalent (h.countsIndex v)).toNat = LogLinear.upper m.val (LogLinear.index m.val v.toNat) := by
  rw [countsIndex_eq_ofNat hs, highestEquivalent_toNat hs (index_lt m v)]

/-! ## Overflow -/

theorem octaveOf_eq (hs : h.Shaped m B) (v : BitVec 64) : h.octaveOf v = LogLinear.octave m.val v.toNat := by
  obtain ⟨hbucket, -⟩ := bucket_eq hs v
  unfold octaveOf
  simp only [hbucket, Int.natCast_nonneg, not_lt.mpr, if_false, Int.toNat_natCast]

theorem octaveAt_eq (hs : h.Shaped m B) {i : Nat} (hi : i < (64 - m.val + 1) * 2 ^ m.val) :
    h.octaveAt (BitVec.ofNat 64 i) = LogLinear.level m.val i := by
  obtain ⟨hlevel, -⟩ := level_eq hs hi
  unfold octaveAt LogLinear.level
  simp only [hlevel]
  split <;> omega

theorem sub_lt (hs : h.Shaped m B) (i : BitVec 64) :
    (i &&& (h.subHalfCount - 1)).toNat < 2 ^ m.val ∧ (h.subAt i).toNat < 2 ^ (m.val + 1) := by
  have hpos := Nat.two_pow_pos m.val
  have hhalf : 2 ^ m.val ≤ 2 ^ 62 := Nat.pow_le_pow_right (by decide) m.le
  have hmask : (i &&& (h.subHalfCount - 1)).toNat < 2 ^ m.val := by
    have hminus : (h.subHalfCount - 1).toNat = 2 ^ m.val - 1 := by
      rw [BitVec.toNat_sub_of_le, hs.half]
      · rfl
      · rw [BitVec.le_def, hs.half]
        exact hpos
    rw [BitVec.toNat_and, hminus, Nat.and_two_pow_sub_one_eq_mod]
    exact Nat.mod_lt _ hpos
  refine ⟨hmask, ?_⟩
  unfold subAt
  rw [BitVec.toNat_add, hs.half, Nat.mod_eq_of_lt (by omega), Nat.pow_succ]
  omega

theorem Shaped.no_overflow (hs : h.Shaped m B) (v : BitVec 64) : h.Fits v := by
  obtain ⟨-, hoct⟩ := bucket_eq hs v
  obtain ⟨hmask, hsub⟩ := sub_lt hs (h.countsIndex v)
  have hhalf : 2 ^ m.val ≤ 2 ^ 62 := Nat.pow_le_pow_right (by decide) m.le
  have hlevel := LogLinear.level_index m.val v.toNat
  have hoctave : h.octaveAt (h.countsIndex v) = LogLinear.octave m.val v.toNat := by
    rw [countsIndex_eq_ofNat hs, octaveAt_eq hs (index_lt m v), hlevel]
  have hshift : (v >>> LogLinear.octave m.val v.toNat).toNat = v.toNat / 2 ^ LogLinear.octave m.val v.toNat := by
    rw [BitVec.toNat_ushiftRight, Nat.shiftRight_eq_div_pow]
  -- the first index of an octave, and the offset of a value in it
  have hall := octaves_lt m
  have hmul : (LogLinear.octave m.val v.toNat + 1) * 2 ^ m.val ≤ (64 - m.val) * 2 ^ m.val :=
    Nat.mul_le_mul_right _ (by omega)
  have hone : 2 ^ m.val ≤ (LogLinear.octave m.val v.toNat + 1) * 2 ^ m.val := Nat.le_mul_of_pos_left _ (by omega)
  have hscaled := LogLinear.scaled_lt m.val v.toNat
  rw [Nat.add_mul] at hall
  rw [Nat.pow_succ] at hscaled
  refine ⟨rfl, valueFromIndex_eq h _, rfl, ?_, ?_, ?_, ?_, ?_, ?_, ?_, ?_⟩
  · rw [octaveOf_eq hs]
    omega
  · rw [octaveOf_eq hs, hs.mag]
    omega
  · rw [octaveOf_eq hs, hs.mag, hshift]
    omega
  · rw [octaveOf_eq hs, hs.mag, hs.half]
    omega
  · rw [hs.half]
    omega
  · rw [hoctave]
    omega
  · rw [hoctave]
    calc (h.subAt (h.countsIndex v)).toNat * 2 ^ LogLinear.octave m.val v.toNat
        < 2 ^ (m.val + 1) * 2 ^ LogLinear.octave m.val v.toNat := Nat.mul_lt_mul_of_pos_right hsub (Nat.two_pow_pos _)
      _ ≤ 2 ^ 64 := by
          rw [← Nat.pow_add]
          exact Nat.pow_le_pow_right (by decide) (by omega)
  · have hupper := (h.highestEquivalent (h.countsIndex v)).isLt
    rw [upper_toNat hs] at hupper
    unfold LogLinear.upper at hupper
    rw [lower_toNat hs, hoctave, ← hlevel]
    exact hupper

/-! ## Tiling -/

theorem Shaped.used_iff (hs : h.Shaped m B) (i : BitVec 64) :
    (∃ v, h.countsIndex v = i) ↔ i.toNat < (64 - m.val + 1) * 2 ^ m.val := by
  constructor
  · intro hv
    obtain ⟨v, rfl⟩ := hv
    rw [countsIndex_toNat hs]
    exact index_lt m v
  · intro hi
    -- the lower end of the bucket is a value in it
    refine ⟨h.valueFromIndex i, ?_⟩
    have hlower := valueFromIndex_toNat hs hi
    rw [BitVec.ofNat_toNat, BitVec.setWidth_eq] at hlower
    apply BitVec.eq_of_toNat_eq
    rw [countsIndex_toNat hs, hlower, LogLinear.index_lower]

theorem Shaped.tiles (hs : h.Shaped m B) : h.Tiles m where
  fits := hs.no_overflow
  contains := by
    intro v
    rw [BitVec.le_def, BitVec.le_def, lower_toNat hs, upper_toNat hs]
    exact ⟨LogLinear.lower_index_le m.val v.toNat, LogLinear.le_upper_index m.val v.toNat⟩
  mono := by
    intro v w hvw
    rw [BitVec.le_def, countsIndex_toNat hs, countsIndex_toNat hs]
    exact LogLinear.index_mono hvw
  used := hs.used_iff
  next := by
    intro v w hnext
    rw [countsIndex_toNat hs, countsIndex_toNat hs] at hnext
    rw [upper_toNat hs, lower_toNat hs, hnext]
    exact LogLinear.upper_add_one m.val _
  exact := by
    intro v hv
    obtain ⟨hlo, hhi⟩ := LogLinear.width_first hv
    have hself := LogLinear.index_eq_self hv
    constructor
    · apply BitVec.eq_of_toNat_eq
      rw [lower_toNat hs, hself, hlo]
    · apply BitVec.eq_of_toNat_eq
      rw [upper_toNat hs, hself, hhi]
  narrow := by
    intro v
    have hwidth := LogLinear.width_le m.val (LogLinear.index m.val v.toNat)
    have hpos := Nat.two_pow_pos (LogLinear.level m.val (LogLinear.index m.val v.toNat))
    rw [upper_toNat hs, lower_toNat hs]
    unfold LogLinear.upper
    omega

/-! ## Bins -/

theorem size_le_used (hs : h.Shaped m B) : h.counts.length ≤ (64 - m.val + 1) * 2 ^ m.val := by
  have hfits := hs.fits
  rw [hs.size]
  exact Nat.mul_le_mul_right _ (by omega)

theorem binsFrom_ascending (hs : h.Shaped m B) : ∀ {cs : List Nat} {i : Nat},
    i + cs.length ≤ (64 - m.val + 1) * 2 ^ m.val → (h.binsFrom i cs).Pairwise fun a b => a.hi < b.lo := by
  intro cs
  induction cs with
  | nil => intro i _; exact List.Pairwise.nil
  | cons c cs ih =>
    intro i hlen
    rw [List.length_cons] at hlen
    have hrest := ih (i := i + 1) (by omega)
    by_cases hc : c = 0
    · rw [binsFrom, if_pos hc]
      exact hrest
    · rw [binsFrom, if_neg hc, List.pairwise_cons]
      refine ⟨?_, hrest⟩
      intro b hb
      obtain ⟨j, hij, hj, hlo, -⟩ := mem_binsFrom hb
      rw [hlo, BitVec.lt_def, highestEquivalent_toNat hs (by omega), valueFromIndex_toNat hs (by omega)]
      exact LogLinear.upper_lt_lower (by omega)

theorem Holds.partitions {xs : List (BitVec 64)} (hh : h.Holds m B xs) : h.Partitions xs where
  ends := by
    intro b hb
    have hsize := size_le_used hh.shaped
    obtain ⟨j, -, hj, hlo, hhi⟩ := mem_binsFrom hb
    rw [hlo, hhi, BitVec.le_def, valueFromIndex_toNat hh.shaped (by omega), highestEquivalent_toNat hh.shaped (by omega)]
    exact LogLinear.lower_le_upper m.val j
  ascending := by
    apply binsFrom_ascending hh.shaped
    have hsize := size_le_used hh.shaped
    omega
  total := by rw [sum_bins, hh.sum_counts]
  recorded := hh.total

end LatencyHistogram

open LatencyHistogram

/-- The buckets tile the 64-bit values, the constructor's counters reach every value in
    range, and the bins of any recorded sequence partition its samples. -/
theorem buckets_tile (m : Magnitude) (highest : BitVec 64) (hle : highest.toNat ≤ 2 ^ 63) :
    ∃ h, construct 64 highest m = some h ∧ h.Tiles m ∧
      (∀ v : BitVec 64, v.toNat < range m highest → (h.countsIndex v).toNat < h.counts.length) ∧
      ∀ xs, (h.recordAll xs).Partitions xs := by
  obtain ⟨h, hc⟩ := Option.isSome_iff_exists.mp (construct_isSome hle m)
  obtain ⟨B, hs, -, -, hB⟩ := construct_shaped hc
  refine ⟨h, hc, hs.tiles, ?_, ?_⟩
  · intro v hv
    rw [countsIndex_toNat hs, hs.size, LogLinear.index_lt_iff, hB]
    exact hv
  · intro xs
    obtain ⟨C, hh, -⟩ := construct_holds hc xs
    exact hh.partitions

/-- The defaults of the constructor. -/
theorem buckets_tile_default :
    ∃ h, construct 64 60000000000#64 threeFigures = some h ∧ h.Tiles threeFigures ∧
      (∀ v : BitVec 64, v.toNat < range threeFigures 60000000000#64 → (h.countsIndex v).toNat < h.counts.length) ∧
      ∀ xs, (h.recordAll xs).Partitions xs := buckets_tile threeFigures 60000000000#64 (by decide)

end Lob
