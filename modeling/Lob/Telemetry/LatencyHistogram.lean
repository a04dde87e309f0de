/-
  Lob.Telemetry.LatencyHistogram — the latency histogram (`latency_histogram.hpp`).

  Values and indices are words of 64 bits, shifted and masked as the code does it. The
  constructor computes `sub_half_mag_` in floating point; here it is the parameter `m`
  (10 for the code's 3 significant figures). Its loop doubles a word while it is below
  `highest`, and runs for ever when `highest` exceeds `2 ^ 63` (`enlarge_none`). Counts and
  totals grow by one a record, add up in `merge`, and are natural numbers. `percentile`
  takes the rank it is after, which the code computes in floating point from `p`.

  The counters of a histogram that recorded `xs` are the tally of their slots (`Holds`),
  where a slot is the index of `Lob.Base.LogLinear`, the last one for values out of range.
-/

import Mathlib.Data.Nat.Bitwise
import Mathlib.Data.Nat.Log
import Lob.Base.Bits
import Lob.Base.LogLinear
import Lob.Base.Ranks

namespace Lob

open Base Base.Ranks

/-- What `sub_half_mag_` can be: at least 1, and the code's shifts by it are defined. -/
structure Magnitude where
  val : Nat
  pos : 1 ≤ val
  le : val ≤ 62

structure LatencyHistogram where
  subHalfMag : Nat
  subHalfCount : BitVec 64
  subCount : BitVec 64
  subMask : BitVec 64
  lzcBase : Int
  bucketCount : Nat
  counts : List Nat
  total : Nat
  sum : BitVec 64
  minValue : BitVec 64
  maxValue : BitVec 64

namespace LatencyHistogram

/-! ## Construction -/

/-- The constructor's loop: `s` is `smallest_untrackable`, `n` is `bucket_count_`. -/
def enlarge (highest : BitVec 64) : Nat → BitVec 64 → Nat → Option Nat
  | 0, _, _ => none
  | fuel + 1, s, n => if s < highest then enlarge highest fuel (s <<< 1) (n + 1) else some n

/-- The constructor; `none` while its loop still runs after `fuel` turns. -/
def construct (fuel : Nat) (highest : BitVec 64) (m : Magnitude) : Option LatencyHistogram :=
  let subHalfCount := 1#64 <<< m.val
  let subCount := subHalfCount <<< 1
  (enlarge highest fuel subCount 1).map fun bucketCount =>
    { subHalfMag := m.val
      subHalfCount := subHalfCount
      subCount := subCount
      subMask := subCount - 1
      lzcBase := 64 - (m.val + 1)
      bucketCount := bucketCount
      counts := List.replicate (BitVec.ofNat 64 (bucketCount + 1) * subHalfCount).toNat 0
      total := 0
      sum := 0
      minValue := BitVec.allOnes 64
      maxValue := 0 }

/-! ## Indices -/

def countsIndex (h : LatencyHistogram) (value : BitVec 64) : BitVec 64 :=
  let bucket : Int := h.lzcBase - (value ||| h.subMask).clz.toNat
  let b : Nat := if bucket < 0 then 0 else bucket.toNat
  let sub := value >>> b
  let base := BitVec.ofNat 64 (b + 1) <<< h.subHalfMag
  base + sub - h.subHalfCount

def valueFromIndex (h : LatencyHistogram) (i : BitVec 64) : BitVec 64 :=
  let bucket : Int := (i >>> h.subHalfMag).toInt - 1
  let sub := (i &&& (h.subHalfCount - 1)) + h.subHalfCount
  if bucket < 0 then (sub - h.subHalfCount) <<< 0 else sub <<< bucket.toNat

def highestEquivalent (h : LatencyHistogram) (i : BitVec 64) : BitVec 64 :=
  let bucket : Int := (i >>> h.subHalfMag).toInt - 1
  let b : Nat := if bucket < 0 then 0 else bucket.toNat
  h.valueFromIndex i + ((1#64 <<< b) - 1)

/-! ## Recording and reading -/

def record (h : LatencyHistogram) (value : BitVec 64) : LatencyHistogram :=
  let idx := (h.countsIndex value).toNat
  { h with
    counts := if h.counts.length ≤ idx then h.counts.modify (h.counts.length - 1) (· + 1)
              else h.counts.modify idx (· + 1)
    total := h.total + 1
    sum := h.sum + value
    minValue := if value < h.minValue then value else h.minValue
    maxValue := if h.maxValue < value then value else h.maxValue }

def recordAll (h : LatencyHistogram) (xs : List (BitVec 64)) : LatencyHistogram := xs.foldl record h

def count (h : LatencyHistogram) : Nat := h.total

/-- The loop of `percentile` over the counters from index `i` on. -/
def scan (h : LatencyHistogram) (target : Nat) : Nat → Nat → List Nat → BitVec 64
  | _, _, [] => h.maxValue
  | i, running, c :: cs =>
    if target ≤ running + c then h.highestEquivalent (BitVec.ofNat 64 i)
    else h.scan target (i + 1) (running + c) cs

def percentile (h : LatencyHistogram) (target : Nat) : BitVec 64 :=
  if h.total = 0 then 0
  else h.scan (if target = 0 then 1 else target) 0 0 h.counts

protected def min (h : LatencyHistogram) : BitVec 64 := if h.total = 0 then 0 else h.minValue

protected def max (h : LatencyHistogram) : BitVec 64 := h.maxValue

structure Bin where
  lo : BitVec 64
  hi : BitVec 64
  count : Nat

/-- The loop of `bins` over the counters from index `i` on. -/
def binsFrom (h : LatencyHistogram) : Nat → List Nat → List Bin
  | _, [] => []
  | i, c :: cs =>
    if c = 0 then h.binsFrom (i + 1) cs
    else ⟨h.valueFromIndex (BitVec.ofNat 64 i), h.highestEquivalent (BitVec.ofNat 64 i), c⟩ :: h.binsFrom (i + 1) cs

def bins (h : LatencyHistogram) : List Bin := h.binsFrom 0 h.counts

/-! ## Merging -/

/-- The loop of `merge`: it ends with the shorter of the two arrays. -/
def addCounts : List Nat → List Nat → List Nat
  | c :: cs, d :: ds => (c + d) :: addCounts cs ds
  | cs, _ => cs

def merge (h other : LatencyHistogram) : LatencyHistogram :=
  { h with
    counts := addCounts h.counts other.counts
    total := h.total + other.total
    sum := h.sum + other.sum
    minValue := if other.minValue < h.minValue then other.minValue else h.minValue
    maxValue := if h.maxValue < other.maxValue then other.maxValue else h.maxValue }

/-- The first value out of range: `2 ^ (m + 1)`, doubled until it reaches `highest`. -/
def range (m : Magnitude) (highest : BitVec 64) : Nat := 2 ^ max (m.val + 1) (Nat.clog 2 highest.toNat)

/-- The magnitude of 3 significant figures: `ceil(log2(2000)) - 1`. -/
def threeFigures : Magnitude := ⟨10, by decide, by decide⟩

/-! ## The constructor's loop -/

theorem enlarge_zero {highest : BitVec 64} (h : highest ≠ 0#64) : ∀ fuel n, enlarge highest fuel 0#64 n = none := by
  intro fuel
  induction fuel with
  | zero => intro n; rfl
  | succ fuel ih =>
    intro n
    have hlt : 0#64 < highest := by
      rw [BitVec.lt_def]
      exact Nat.pos_of_ne_zero fun h0 => h (BitVec.eq_of_toNat_eq h0)
    simp only [enlarge, if_pos hlt, BitVec.zero_shiftLeft]
    exact ih _

/-- The loop ends at the first power of two from `2 ^ k` on that reaches `highest`. -/
theorem enlarge_some {highest : BitVec 64} : ∀ {fuel k n c : Nat} {s : BitVec 64}, k < 64 → s.toNat = 2 ^ k →
    enlarge highest fuel s n = some c → ∃ B, c = n + B ∧ k + B = max k (Nat.clog 2 highest.toNat) ∧ k + B < 64 := by
  intro fuel
  induction fuel with
  | zero => intro k n c s _ _ h; cases h
  | succ fuel ih =>
    intro k n c s hk hs h
    by_cases hlt : s < highest
    · simp only [enlarge, if_pos hlt] at h
      have hclog : k < Nat.clog 2 highest.toNat := by
        rw [Nat.lt_clog_iff_pow_lt (by decide), ← hs]
        exact hlt
      have hshift : (s <<< 1).toNat = 2 ^ (k + 1) % 2 ^ 64 := by
        rw [BitVec.toNat_shiftLeft, hs, Nat.shiftLeft_eq, ← Nat.pow_add]
      by_cases hk63 : k + 1 < 64
      · rw [Nat.mod_eq_of_lt (Nat.pow_lt_pow_right (by decide) hk63)] at hshift
        obtain ⟨B, hc, hB, hlt64⟩ := ih hk63 hshift h
        exact ⟨B + 1, by omega, by omega, by omega⟩
      · -- the word is shifted out, and the loop goes on with 0
        have hzero : s <<< 1 = 0#64 := by
          apply BitVec.eq_of_toNat_eq
          rw [hshift, show k + 1 = 64 by omega]
          simp
        have hne : highest ≠ 0#64 := by
          intro h0
          rw [h0] at hlt
          exact Nat.not_lt_zero _ hlt
        rw [hzero, enlarge_zero hne] at h
        cases h
    · simp only [enlarge, if_neg hlt, Option.some.injEq] at h
      have hclog : Nat.clog 2 highest.toNat ≤ k := by
        rw [Nat.clog_le_iff_le_pow (by decide), ← hs]
        exact BitVec.not_lt.mp hlt
      exact ⟨0, by omega, by omega, by omega⟩

/-- Past `2 ^ 63` the loop never ends. -/
theorem enlarge_none {highest : BitVec 64} (h : 2 ^ 63 < highest.toNat) {fuel k n : Nat} {s : BitVec 64} (hk : k < 64)
    (hs : s.toNat = 2 ^ k) : enlarge highest fuel s n = none := by
  cases he : enlarge highest fuel s n with
  | none => rfl
  | some c =>
    obtain ⟨B, -, hB, hlt⟩ := enlarge_some hk hs he
    have := (Nat.lt_clog_iff_pow_lt (by decide)).mpr h
    omega

/-- Up to `2 ^ 63` it does. -/
theorem enlarge_isSome {highest : BitVec 64} (h : highest.toNat ≤ 2 ^ 63) : ∀ {fuel k n : Nat} {s : BitVec 64},
    k < 64 → s.toNat = 2 ^ k → 64 ≤ fuel + k → (enlarge highest fuel s n).isSome := by
  intro fuel
  induction fuel with
  | zero => intro k n s hk _ hf; omega
  | succ fuel ih =>
    intro k n s hk hs hf
    by_cases hlt : s < highest
    · simp only [enlarge, if_pos hlt]
      have hpow : 2 ^ k < 2 ^ 63 := by
        rw [← hs]
        exact Nat.lt_of_lt_of_le hlt h
      have hk63 : k < 63 := (Nat.pow_lt_pow_iff_right (by decide)).mp hpow
      refine ih (k := k + 1) (by omega) ?_ (by omega)
      rw [BitVec.toNat_shiftLeft, hs, Nat.shiftLeft_eq, ← Nat.pow_add,
        Nat.mod_eq_of_lt (Nat.pow_lt_pow_right (by decide) (by omega))]
    · simp only [enlarge, if_neg hlt, Option.isSome_some]

/-! ## The words as numbers -/

/-- The fields the constructor fixes, for a range of `B + 1` octaves. -/
structure Shaped (h : LatencyHistogram) (m : Magnitude) (B : Nat) : Prop where
  mag : h.subHalfMag = m.val
  half : h.subHalfCount.toNat = 2 ^ m.val
  mask : h.subMask.toNat = 2 ^ (m.val + 1) - 1
  base : h.lzcBase = 63 - m.val
  size : h.counts.length = (B + 1 + 1) * 2 ^ m.val
  fits : m.val + 1 + B < 64

variable {h : LatencyHistogram} {m : Magnitude} {B : Nat}

/-- All buckets there are, up to the largest word, are numbered by words. -/
theorem octaves_lt (m : Magnitude) : (64 - m.val + 2) * 2 ^ m.val ≤ 2 ^ 64 := by
  have hk : 64 - m.val + 2 ≤ 2 ^ (64 - m.val) := by
    obtain ⟨k, hk⟩ : ∃ k, 64 - m.val = k + 2 := ⟨62 - m.val, by have := m.le; omega⟩
    rw [hk, Nat.pow_add]
    have : k < 2 ^ k := Nat.lt_two_pow_self
    omega
  calc (64 - m.val + 2) * 2 ^ m.val ≤ 2 ^ (64 - m.val) * 2 ^ m.val := Nat.mul_le_mul_right _ hk
    _ = 2 ^ 64 := by rw [← Nat.pow_add, Nat.sub_add_cancel (by have := m.le; omega)]

theorem construct_shaped {fuel : Nat} {highest : BitVec 64} (hc : construct fuel highest m = some h) :
    ∃ B, h.Shaped m B ∧ h.counts = List.replicate h.counts.length 0 ∧ h.total = 0 ∧
      m.val + 1 + B = max (m.val + 1) (Nat.clog 2 highest.toNat) := by
  unfold construct at hc
  obtain ⟨bucketCount, hloop, rfl⟩ := Option.map_eq_some_iff.mp hc
  have hm := m.le
  have hhalf : (1#64 <<< m.val).toNat = 2 ^ m.val := by
    rw [← BitVec.twoPow_eq, BitVec.toNat_twoPow_of_lt (by omega)]
  have hsub : (1#64 <<< m.val <<< 1).toNat = 2 ^ (m.val + 1) := by
    rw [BitVec.toNat_shiftLeft, hhalf, Nat.shiftLeft_eq, ← Nat.pow_add,
      Nat.mod_eq_of_lt (Nat.pow_lt_pow_right (by decide) (by omega))]
  obtain ⟨B, rfl, hB, hlt⟩ := enlarge_some (by omega) hsub hloop
  have hbound : (1 + B + 1) * 2 ^ m.val < 2 ^ 64 := by
    have hle : (1 + B + 1) * 2 ^ m.val < (64 - m.val + 2) * 2 ^ m.val :=
      Nat.mul_lt_mul_of_pos_right (by omega) (Nat.two_pow_pos _)
    have := octaves_lt m
    omega
  have hbuckets : 1 + B + 1 < 2 ^ 64 := by omega
  refine ⟨B, ⟨rfl, hhalf, ?_, ?_, ?_, hlt⟩, ?_, rfl, hB⟩
  · have hpos := Nat.two_pow_pos (m.val + 1)
    show (1#64 <<< m.val <<< 1 - 1).toNat = _
    rw [BitVec.toNat_sub_of_le, hsub]
    · rfl
    · rw [BitVec.le_def, hsub]
      exact hpos
  · show (64 : Int) - (m.val + 1) = 63 - m.val
    omega
  · show (List.replicate _ 0).length = _
    rw [List.length_replicate, BitVec.toNat_mul, hhalf, BitVec.toNat_ofNat, Nat.mod_eq_of_lt hbuckets,
      Nat.mod_eq_of_lt hbound, Nat.add_comm 1 B]
  · show List.replicate _ 0 = List.replicate (List.replicate _ 0).length 0
    rw [List.length_replicate]

/-- The constructor returns for every `highest` up to `2 ^ 63`. -/
theorem construct_isSome {highest : BitVec 64} (h : highest.toNat ≤ 2 ^ 63) (m : Magnitude) :
    (construct 64 highest m).isSome := by
  have hm := m.le
  have hsub : (1#64 <<< m.val <<< 1).toNat = 2 ^ (m.val + 1) := by
    rw [← BitVec.twoPow_eq, BitVec.toNat_shiftLeft, BitVec.toNat_twoPow_of_lt (by omega), Nat.shiftLeft_eq, ← Nat.pow_add,
      Nat.mod_eq_of_lt (Nat.pow_lt_pow_right (by decide) (by omega))]
  unfold construct
  rw [Option.isSome_map]
  exact enlarge_isSome h (by omega) hsub (by omega)

/-- The octave the code reads off the leading zeros; the word counted is never 0. -/
theorem bucket_eq (hs : h.Shaped m B) (v : BitVec 64) :
    h.lzcBase - ((v ||| h.subMask).clz.toNat : Int) = LogLinear.octave m.val v.toNat ∧
      LogLinear.octave m.val v.toNat + m.val < 64 := by
  have hm := m.le
  have hpos := Nat.two_pow_pos m.val
  have hor : (v ||| h.subMask).toNat = v.toNat ||| (2 ^ (m.val + 1) - 1) := by rw [BitVec.toNat_or, hs.mask]
  have hge : 2 ^ m.val ≤ v.toNat ||| (2 ^ (m.val + 1) - 1) := by
    refine Nat.le_trans ?_ Nat.right_le_or
    rw [Nat.pow_succ]
    omega
  have hne : v ||| h.subMask ≠ 0#64 := by
    intro h0
    rw [← hor, h0] at hge
    have hzero : (0#64).toNat = 0 := rfl
    omega
  have htop : 63 - (v ||| h.subMask).clz.toNat = (v.toNat ||| (2 ^ (m.val + 1) - 1)).log2 := by
    rw [← hor]
    exact Bits.topBit_eq_log2 hne
  have hclz : (v ||| h.subMask).clz.toNat < 64 := BitVec.clz_lt_iff_ne_zero.mpr hne
  have hlow : m.val ≤ (v.toNat ||| (2 ^ (m.val + 1) - 1)).log2 := (Nat.le_log2 (by omega)).mpr hge
  rw [hs.base, LogLinear.octave_eq_log2_or]
  omega

theorem countsIndex_toNat (hs : h.Shaped m B) (v : BitVec 64) :
    (h.countsIndex v).toNat = LogLinear.index m.val v.toNat := by
  obtain ⟨hbucket, hoct⟩ := bucket_eq hs v
  have hscaled := LogLinear.scaled_lt m.val v.toNat
  unfold countsIndex
  simp only [hbucket, hs.mag, Int.natCast_nonneg, not_lt.mpr, if_false, Int.toNat_natCast]
  unfold LogLinear.index
  generalize LogLinear.octave m.val v.toNat = b at hoct hscaled
  have hall := octaves_lt m
  have hmul : (b + 1) * 2 ^ m.val ≤ (64 - m.val) * 2 ^ m.val := Nat.mul_le_mul_right _ (by omega)
  rw [Nat.add_mul] at hall
  rw [Nat.pow_succ] at hscaled
  have hpos := Nat.two_pow_pos m.val
  have hbase : (BitVec.ofNat 64 (b + 1) <<< m.val).toNat = (b + 1) * 2 ^ m.val := by
    rw [BitVec.toNat_shiftLeft, BitVec.toNat_ofNat, Nat.mod_eq_of_lt (a := b + 1) (by omega), Nat.shiftLeft_eq,
      Nat.mod_eq_of_lt (by omega)]
  have hsub : (v >>> b).toNat = v.toNat / 2 ^ b := by
    rw [BitVec.toNat_ushiftRight, Nat.shiftRight_eq_div_pow]
  have hadd : (BitVec.ofNat 64 (b + 1) <<< m.val + v >>> b).toNat = (b + 1) * 2 ^ m.val + v.toNat / 2 ^ b := by
    rw [BitVec.toNat_add, hbase, hsub, Nat.mod_eq_of_lt (by omega)]
  have hsplit : (b + 1) * 2 ^ m.val = b * 2 ^ m.val + 2 ^ m.val := by rw [Nat.add_mul, Nat.one_mul]
  rw [BitVec.toNat_sub_of_le, hadd, hs.half]
  · omega
  · rw [BitVec.le_def, hadd, hs.half]
    omega

/-- The octave of an index, as the code reads it. -/
theorem level_eq (hs : h.Shaped m B) {i : Nat} (hi : i < (64 - m.val + 1) * 2 ^ m.val) :
    (BitVec.ofNat 64 i >>> h.subHalfMag).toInt = (i / 2 ^ m.val : Nat) ∧ LogLinear.level m.val i + m.val < 64 := by
  have hm := m.le
  have hdiv : i / 2 ^ m.val < 64 - m.val + 1 := (Nat.div_lt_iff_lt_mul (Nat.two_pow_pos _)).mpr hi
  have hall := octaves_lt m
  have hi64 : i < 2 ^ 64 := by
    rw [Nat.add_mul] at hall hi
    omega
  have hnat : (BitVec.ofNat 64 i >>> h.subHalfMag).toNat = i / 2 ^ m.val := by
    rw [hs.mag, BitVec.toNat_ushiftRight, BitVec.toNat_ofNat, Nat.mod_eq_of_lt hi64, Nat.shiftRight_eq_div_pow]
  constructor
  · rw [BitVec.toInt_eq_toNat_of_lt (by rw [hnat]; omega), hnat]
  · unfold LogLinear.level
    omega

theorem valueFromIndex_toNat (hs : h.Shaped m B) {i : Nat} (hi : i < (64 - m.val + 1) * 2 ^ m.val) :
    (h.valueFromIndex (BitVec.ofNat 64 i)).toNat = LogLinear.lower m.val i := by
  obtain ⟨hlevel, hfits⟩ := level_eq hs hi
  have hpos := Nat.two_pow_pos m.val
  have hall := octaves_lt m
  have hi64 : i < 2 ^ 64 := by
    rw [Nat.add_mul] at hall hi
    omega
  have hm : 2 ^ m.val ≤ 2 ^ 62 := Nat.pow_le_pow_right (by decide) m.le
  have hmod := Nat.mod_lt i hpos
  have hand : (BitVec.ofNat 64 i &&& (h.subHalfCount - 1)).toNat = i % 2 ^ m.val := by
    have hone : (h.subHalfCount - 1).toNat = 2 ^ m.val - 1 := by
      rw [BitVec.toNat_sub_of_le, hs.half]
      · rfl
      · rw [BitVec.le_def, hs.half]
        exact hpos
    rw [BitVec.toNat_and, hone, BitVec.toNat_ofNat, Nat.mod_eq_of_lt hi64, Nat.and_two_pow_sub_one_eq_mod]
  have hsub : ((BitVec.ofNat 64 i &&& (h.subHalfCount - 1)) + h.subHalfCount).toNat = i % 2 ^ m.val + 2 ^ m.val := by
    rw [BitVec.toNat_add, hand, hs.half, Nat.mod_eq_of_lt (by omega)]
  unfold valueFromIndex LogLinear.lower
  simp only [hlevel]
  by_cases hlt : i < 2 ^ m.val
  · -- the first run of indices: the offset comes off again
    have hzero : i / 2 ^ m.val = 0 := Nat.div_eq_of_lt hlt
    rw [if_pos (by rw [hzero]; decide), if_pos hlt, BitVec.shiftLeft_zero, BitVec.toNat_sub_of_le, hsub, hs.half,
      Nat.mod_eq_of_lt hlt]
    · omega
    · rw [BitVec.le_def, hsub, hs.half]
      omega
  · have hge : 1 ≤ i / 2 ^ m.val := (Nat.le_div_iff_mul_le hpos).mpr (by omega)
    have htoNat : ((i / 2 ^ m.val : Nat) - 1 : Int).toNat = LogLinear.level m.val i := by
      unfold LogLinear.level
      omega
    rw [if_neg (by omega), if_neg hlt, htoNat, BitVec.toNat_shiftLeft, hsub, Nat.shiftLeft_eq, Nat.mod_eq_of_lt]
    calc (i % 2 ^ m.val + 2 ^ m.val) * 2 ^ LogLinear.level m.val i
        < 2 ^ (m.val + 1) * 2 ^ LogLinear.level m.val i :=
          Nat.mul_lt_mul_of_pos_right (by rw [Nat.pow_succ]; omega) (Nat.two_pow_pos _)
      _ ≤ 2 ^ 64 := by
          rw [← Nat.pow_add]
          exact Nat.pow_le_pow_right (by decide) (by omega)

theorem highestEquivalent_toNat (hs : h.Shaped m B) {i : Nat} (hi : i < (64 - m.val + 1) * 2 ^ m.val) :
    (h.highestEquivalent (BitVec.ofNat 64 i)).toNat = LogLinear.upper m.val i := by
  obtain ⟨hlevel, hfits⟩ := level_eq hs hi
  have hm := m.le
  have hb : (if ((i / 2 ^ m.val : Nat) : Int) - 1 < 0 then 0 else (((i / 2 ^ m.val : Nat) : Int) - 1).toNat) =
      LogLinear.level m.val i := by
    unfold LogLinear.level
    split <;> omega
  have hwidth : ((1#64 <<< LogLinear.level m.val i) - 1).toNat = 2 ^ LogLinear.level m.val i - 1 := by
    have hone : (1#64 <<< LogLinear.level m.val i).toNat = 2 ^ LogLinear.level m.val i := by
      rw [← BitVec.twoPow_eq, BitVec.toNat_twoPow_of_lt (by omega)]
    rw [BitVec.toNat_sub_of_le, hone]
    · rfl
    · rw [BitVec.le_def, hone]
      exact Nat.two_pow_pos _
  have hlt : LogLinear.upper m.val i < 2 ^ 64 := by
    obtain ⟨C, hC⟩ : ∃ C, 64 - m.val = C + 1 := ⟨63 - m.val, by omega⟩
    rw [hC] at hi
    have := LogLinear.upper_lt hi
    rwa [show m.val + 1 + C = 64 by omega] at this
  unfold LogLinear.upper at hlt ⊢
  unfold highestEquivalent
  simp only [hlevel, hb]
  rw [BitVec.toNat_add, valueFromIndex_toNat hs hi, hwidth, Nat.mod_eq_of_lt hlt]

/-! ## Recorded values -/

/-- The counter a value goes to: its bucket's, or the last one. -/
def slot (m B v : Nat) : Nat := min (LogLinear.index m v) ((B + 1 + 1) * 2 ^ m - 1)

/-- The counters of a histogram that recorded `xs`. -/
structure Holds (h : LatencyHistogram) (m : Magnitude) (B : Nat) (xs : List (BitVec 64)) : Prop where
  shaped : h.Shaped m B
  counts : h.counts = tally ((B + 1 + 1) * 2 ^ m.val) ((xs.map BitVec.toNat).map (slot m.val B))
  total : h.total = xs.length

theorem slot_mono (m B : Nat) : Monotone (slot m B) := by
  intro v w hvw
  have := LogLinear.index_mono (m := m) hvw
  unfold slot
  omega

theorem slot_lt (m B v : Nat) : slot m B v < (B + 1 + 1) * 2 ^ m := by
  have hpos : 0 < (B + 1 + 1) * 2 ^ m := Nat.mul_pos (by omega) (Nat.two_pow_pos m)
  unfold slot
  omega

/-- A value below the range goes to its own bucket. -/
theorem slot_eq_index {m B v : Nat} (h : v < 2 ^ (m + 1 + B)) : slot m B v = LogLinear.index m v := by
  have := (LogLinear.index_lt_iff (m := m) B).mpr h
  unfold slot
  omega

variable {xs : List (BitVec 64)}

theorem Shaped.record (hs : h.Shaped m B) (v : BitVec 64) : (h.record v).Shaped m B := by
  refine ⟨hs.mag, hs.half, hs.mask, hs.base, ?_, hs.fits⟩
  unfold LatencyHistogram.record
  dsimp only
  rw [← hs.size]
  split <;> rw [List.length_modify]

theorem Holds.record (hh : h.Holds m B xs) (v : BitVec 64) : (h.record v).Holds m B (xs ++ [v]) := by
  refine ⟨hh.shaped.record v, ?_, ?_⟩
  · have hslot : (h.record v).counts = h.counts.modify (slot m.val B v.toNat) (· + 1) := by
      unfold LatencyHistogram.record slot
      dsimp only
      rw [countsIndex_toNat hh.shaped, hh.shaped.size]
      split
      · rw [Nat.min_eq_right (by omega)]
      · rw [Nat.min_eq_left (by omega)]
    rw [hslot, hh.counts, modify_tally, List.map_append, List.map_append]
    rfl
  · show h.total + 1 = _
    rw [hh.total, List.length_append]
    rfl

theorem Holds.recordAll (ys : List (BitVec 64)) : ∀ {h : LatencyHistogram} {xs : List (BitVec 64)}, h.Holds m B xs →
    (h.recordAll ys).Holds m B (xs ++ ys) := by
  induction ys with
  | nil =>
    intro h xs hh
    rw [List.append_nil]
    exact hh
  | cons v ys ih =>
    intro h xs hh
    have := ih (hh.record v)
    rw [List.append_assoc] at this
    exact this

/-- A histogram just built, and what it has recorded since. -/
theorem construct_holds {fuel : Nat} {highest : BitVec 64} (hc : construct fuel highest m = some h) (xs : List (BitVec 64)) :
    ∃ B, (h.recordAll xs).Holds m B xs ∧ m.val + 1 + B = max (m.val + 1) (Nat.clog 2 highest.toNat) := by
  obtain ⟨B, hs, hcounts, htotal, hB⟩ := construct_shaped hc
  have hempty : h.Holds m B [] := by
    refine ⟨hs, ?_, htotal⟩
    rw [List.map_nil, List.map_nil, tally_nil, ← hs.size]
    exact hcounts
  have hall := Holds.recordAll xs hempty
  exact ⟨B, hall, hB⟩

/-! ## The scan -/

/-- The scan stops at the first counter where the running count reaches the target. -/
theorem scan_eq {target k : Nat} : ∀ {cs : List Nat} {i running : Nat}, k < cs.length →
    running + (cs.take k).sum < target → target ≤ running + (cs.take (k + 1)).sum →
    h.scan target i running cs = h.highestEquivalent (BitVec.ofNat 64 (i + k)) := by
  induction k with
  | zero =>
    intro cs i running hk _ hhi
    cases cs with
    | nil => simp at hk
    | cons c cs =>
      rw [List.take_succ_cons, List.take_zero, List.sum_cons, List.sum_nil, Nat.add_zero] at hhi
      simp only [scan, if_pos hhi, Nat.add_zero]
  | succ k ih =>
    intro cs i running hk hlo hhi
    cases cs with
    | nil => simp at hk
    | cons c cs =>
      rw [List.take_succ_cons, List.sum_cons] at hlo hhi
      rw [List.length_cons] at hk
      have hgo : ¬ target ≤ running + c := by omega
      simp only [scan, if_neg hgo]
      rw [ih (by omega) (by omega) (by omega), show i + 1 + k = i + (k + 1) by omega]

/-- The percentile of a rank is the upper end of the bucket that counts the ranked value. -/
theorem Holds.percentile_eq (hh : h.Holds m B xs) {t v : Nat} (hv : ranked (xs.map BitVec.toNat) t = some v) :
    (h.percentile t).toNat = LogLinear.upper m.val (slot m.val B v) := by
  have hfits := hh.shaped.fits
  have hlt := slot_lt m.val B v
  obtain ⟨hlo, hhi⟩ := reaches_ranked (slot_mono m.val B) hlt hv
  rw [← hh.counts] at hlo hhi
  have ht : t ≠ 0 := by
    intro h0
    subst h0
    cases hv
  have htotal : h.total ≠ 0 := by
    intro h0
    have hmem := mem_of_ranked hv
    rw [List.length_eq_zero_iff.mp (hh.total.symm.trans h0)] at hmem
    cases hmem
  unfold percentile
  rw [if_neg htotal, if_neg ht, scan_eq (by rw [hh.shaped.size]; exact hlt) (by omega) (by omega), Nat.zero_add]
  refine highestEquivalent_toNat hh.shaped (Nat.lt_of_lt_of_le hlt (Nat.mul_le_mul_right _ ?_))
  omega

/-! ## Bins -/

theorem mem_binsFrom {b : Bin} : ∀ {cs : List Nat} {i : Nat}, b ∈ h.binsFrom i cs →
    ∃ j, i ≤ j ∧ j < i + cs.length ∧ b.lo = h.valueFromIndex (BitVec.ofNat 64 j) ∧
      b.hi = h.highestEquivalent (BitVec.ofNat 64 j) := by
  intro cs
  induction cs with
  | nil => intro i hb; cases hb
  | cons c cs ih =>
    intro i hb
    have hrest : b ∈ h.binsFrom (i + 1) cs → ∃ j, i ≤ j ∧ j < i + (c :: cs).length ∧
        b.lo = h.valueFromIndex (BitVec.ofNat 64 j) ∧ b.hi = h.highestEquivalent (BitVec.ofNat 64 j) := by
      intro hmem
      obtain ⟨j, hlo, hhi, hbin⟩ := ih hmem
      rw [List.length_cons]
      exact ⟨j, by omega, by omega, hbin⟩
    by_cases hc : c = 0
    · rw [binsFrom, if_pos hc] at hb
      exact hrest hb
    · rw [binsFrom, if_neg hc] at hb
      cases hb with
      | head => exact ⟨i, Nat.le_refl i, by rw [List.length_cons]; omega, rfl, rfl⟩
      | tail _ hmem => exact hrest hmem

theorem sum_binsFrom : ∀ (cs : List Nat) (i : Nat), ((h.binsFrom i cs).map Bin.count).sum = cs.sum := by
  intro cs
  induction cs with
  | nil => intro i; rfl
  | cons c cs ih =>
    intro i
    by_cases hc : c = 0
    · rw [binsFrom, if_pos hc, ih, List.sum_cons, hc, Nat.zero_add]
    · rw [binsFrom, if_neg hc, List.map_cons, List.sum_cons, ih, List.sum_cons]

/-- The bins' counts add up to the counters. -/
theorem sum_bins (h : LatencyHistogram) : (h.bins.map Bin.count).sum = h.counts.sum := sum_binsFrom h.counts 0

/-- Every recorded value is counted once. -/
theorem Holds.sum_counts (hh : h.Holds m B xs) : h.counts.sum = h.count := by
  have hslots : ∀ k ∈ (xs.map BitVec.toNat).map (slot m.val B), k < (B + 1 + 1) * 2 ^ m.val := by
    intro k hk
    obtain ⟨v, -, rfl⟩ := List.mem_map.mp hk
    exact slot_lt m.val B v
  unfold count
  rw [hh.counts, sum_tally hslots, hh.total, List.length_map, List.length_map]

end LatencyHistogram

end Lob
