/-
  Lob.Laws.Merge — merging two histograms against recording everything in one.

  `merge` adds the counters of the other array index by index, up to the shorter length,
  and the totals, minimum and maximum whole. Those three are always right
  (`merge_extremes`). The counters are right exactly when each value of the other histogram
  sits at the index it would have here (`slot_eq_iff`): when both have one range, or when
  every value is below the smaller one (`merge_records_iff`). Beyond it a longer array's
  counters are dropped (`merge_loses_samples`), and a shorter array's last counter, which
  holds everything past its range, is added to an ordinary bucket of this one.
-/

import Lob.Telemetry.LatencyHistogram

namespace Lob

open Base Base.Ranks

namespace LatencyHistogram

/-- `h` reads as `a`, empty, would after recording `xs` and then `ys`. -/
structure ReadsAs (h a : LatencyHistogram) (xs ys : List (BitVec 64)) : Prop where
  count : h.count = (xs ++ ys).length
  min : h.min.toNat = ((xs ++ ys).map BitVec.toNat).min?.getD 0
  max : h.max.toNat = ((xs ++ ys).map BitVec.toNat).max?.getD 0
  bins : (h.bins.map Bin.count).sum = h.count
  percentiles : ∀ t, h.percentile t = (a.recordAll (xs ++ ys)).percentile t

/-- The extremes of a histogram that recorded `xs`: the constructor's while it is empty. -/
structure Seen (h : LatencyHistogram) (xs : List (BitVec 64)) : Prop where
  least : h.minValue.toNat = (xs.map BitVec.toNat).foldl min (2 ^ 64 - 1)
  greatest : h.maxValue.toNat = (xs.map BitVec.toNat).foldl max 0

variable {h a b : LatencyHistogram} {m : Magnitude} {B C : Nat} {xs ys : List (BitVec 64)}

/-! ## Extremes -/

theorem toNat_ite_lt_min (v w : BitVec 64) : (if v < w then v else w).toNat = min w.toNat v.toNat := by
  by_cases hlt : v < w
  · have hle := BitVec.lt_def.mp hlt
    rw [if_pos hlt, Nat.min_eq_right (by omega)]
  · have hle := BitVec.not_lt.mp hlt
    rw [if_neg hlt, Nat.min_eq_left hle]

theorem toNat_ite_lt_max (v w : BitVec 64) : (if w < v then v else w).toNat = max w.toNat v.toNat := by
  by_cases hlt : w < v
  · have hle := BitVec.lt_def.mp hlt
    rw [if_pos hlt, Nat.max_eq_right (by omega)]
  · have hle := BitVec.not_lt.mp hlt
    rw [if_neg hlt, Nat.max_eq_left hle]

theorem construct_seen {fuel : Nat} {highest : BitVec 64} (hc : construct fuel highest m = some h) : h.Seen [] := by
  unfold construct at hc
  obtain ⟨n, -, rfl⟩ := Option.map_eq_some_iff.mp hc
  exact ⟨rfl, rfl⟩

theorem Seen.record (hs : h.Seen xs) (v : BitVec 64) : (h.record v).Seen (xs ++ [v]) := by
  constructor
  · rw [List.map_append, List.foldl_append, ← hs.least]
    exact toNat_ite_lt_min v h.minValue
  · rw [List.map_append, List.foldl_append, ← hs.greatest]
    exact toNat_ite_lt_max v h.maxValue

theorem Seen.recordAll (ys : List (BitVec 64)) : ∀ {h : LatencyHistogram} {xs : List (BitVec 64)}, h.Seen xs →
    (h.recordAll ys).Seen (xs ++ ys) := by
  induction ys with
  | nil =>
    intro h xs hs
    rw [List.append_nil]
    exact hs
  | cons v ys ih =>
    intro h xs hs
    have hrest := ih (hs.record v)
    rw [List.append_assoc] at hrest
    exact hrest

theorem Seen.merge (ha : a.Seen xs) (hb : b.Seen ys) : (a.merge b).Seen (xs ++ ys) := by
  have htop : a.minValue.toNat = min a.minValue.toNat (2 ^ 64 - 1) := by
    have hlt := a.minValue.isLt
    omega
  have hzero : a.maxValue.toNat = max a.maxValue.toNat 0 := by omega
  constructor
  · rw [List.map_append, List.foldl_append, ← ha.least, htop, List.foldl_assoc, ← hb.least]
    exact toNat_ite_lt_min b.minValue a.minValue
  · rw [List.map_append, List.foldl_append, ← ha.greatest, hzero, List.foldl_assoc, ← hb.greatest]
    exact toNat_ite_lt_max b.maxValue a.maxValue

theorem Seen.max_eq (hs : h.Seen xs) : h.max.toNat = (xs.map BitVec.toNat).max?.getD 0 := by
  show h.maxValue.toNat = _
  rw [hs.greatest]
  cases xs with
  | nil => rfl
  | cons v xs =>
    rw [List.map_cons, List.max?_cons', List.foldl_cons, Nat.zero_max]
    rfl

theorem Seen.min_eq (hs : h.Seen xs) (htotal : h.total = xs.length) :
    h.min.toNat = (xs.map BitVec.toNat).min?.getD 0 := by
  unfold LatencyHistogram.min
  cases xs with
  | nil =>
    rw [List.length_nil] at htotal
    rw [if_pos htotal]
    rfl
  | cons v xs =>
    have hlt := v.isLt
    rw [if_neg (by rw [htotal, List.length_cons]; omega), hs.least, List.map_cons, List.min?_cons', List.foldl_cons,
      Nat.min_eq_right (by omega)]
    rfl

/-! ## Counters -/

@[simp] theorem length_addCounts : ∀ cs ds : List Nat, (addCounts cs ds).length = cs.length := by
  intro cs
  induction cs with
  | nil => intro ds; rfl
  | cons c cs ih =>
    intro ds
    cases ds with
    | nil => rfl
    | cons d ds => rw [addCounts, List.length_cons, List.length_cons, ih]

theorem getElem?_addCounts : ∀ (cs ds : List Nat) (i : Nat),
    (addCounts cs ds)[i]? = cs[i]?.map (· + ds[i]?.getD 0) := by
  intro cs
  induction cs with
  | nil => intro ds i; simp [addCounts]
  | cons c cs ih =>
    intro ds i
    cases ds with
    | nil => simp [addCounts]
    | cons d ds =>
      cases i with
      | zero => simp [addCounts]
      | succ i => simp [addCounts, ih]

/-- Adding a tally, of whatever length, to one is tallying both. -/
theorem addCounts_tally {n n' : Nat} {ks ls : List Nat} (hls : ∀ l ∈ ls, l < n') :
    addCounts (tally n ks) (tally n' ls) = tally n (ks ++ ls) := by
  apply List.ext_getElem?
  intro i
  have hcount : (tally n' ls)[i]?.getD 0 = ls.count i := by
    by_cases hi : i < n'
    · simp [tally, hi]
    · have hnot : i ∉ ls := fun hmem => hi (hls i hmem)
      rw [List.getElem?_eq_none (by rw [length_tally]; omega), List.count_eq_zero_of_not_mem hnot]
      rfl
  rw [getElem?_addCounts, hcount]
  by_cases hi : i < n
  · simp [tally, hi]
  · rw [List.getElem?_eq_none (by rw [length_tally]; omega), List.getElem?_eq_none (by rw [length_tally]; omega)]
    rfl

theorem merge_counts (ha : a.Holds m B xs) (hb : b.Holds m C ys) :
    (a.merge b).counts = tally ((B + 1 + 1) * 2 ^ m.val)
      ((xs.map BitVec.toNat).map (slot m.val B) ++ (ys.map BitVec.toNat).map (slot m.val C)) := by
  have hslots : ∀ l ∈ (ys.map BitVec.toNat).map (slot m.val C), l < (C + 1 + 1) * 2 ^ m.val := by
    intro l hl
    obtain ⟨v, -, rfl⟩ := List.mem_map.mp hl
    exact slot_lt m.val C v
  show addCounts a.counts b.counts = _
  rw [ha.counts, hb.counts, addCounts_tally hslots]

theorem Shaped.merge (ha : a.Shaped m B) (b : LatencyHistogram) : (a.merge b).Shaped m B :=
  ⟨ha.mag, ha.half, ha.mask, ha.base, (length_addCounts a.counts b.counts).trans ha.size, ha.fits⟩

/-- A value has one slot in arrays of different lengths when it is below the smaller range. -/
theorem slot_eq_iff {m v : Nat} (hlt : B < C) : slot m C v = slot m B v ↔ v < 2 ^ (m + 1 + B) := by
  constructor
  · intro heq
    by_contra hge
    have hout : ¬ LogLinear.index m v < (B + 1 + 1) * 2 ^ m := fun hin => hge ((LogLinear.index_lt_iff B).mp hin)
    have hlong : (B + 1 + 1 + 1) * 2 ^ m ≤ (C + 1 + 1) * 2 ^ m := Nat.mul_le_mul_right _ (by omega)
    have hpos := Nat.two_pow_pos m
    have hshort : 0 < (B + 1 + 1) * 2 ^ m := Nat.mul_pos (by omega) hpos
    rw [Nat.add_mul (B + 1 + 1) 1] at hlong
    unfold slot at heq
    generalize (B + 1 + 1) * 2 ^ m = short at heq hout hlong hshort
    generalize (C + 1 + 1) * 2 ^ m = long at heq hlong
    omega
  · intro hin
    have hpow : 2 ^ (m + 1 + B) ≤ 2 ^ (m + 1 + C) := Nat.pow_le_pow_right (by decide) (by omega)
    rw [slot_eq_index hin, slot_eq_index (Nat.lt_of_lt_of_le hin hpow)]

theorem slots_agree_iff (m A B : Nat) (ys : List (BitVec 64)) :
    (∀ y ∈ ys, slot m B y.toNat = slot m A y.toNat) ↔
      2 ^ (m + 1 + A) = 2 ^ (m + 1 + B) ∨ ∀ y ∈ ys, y.toNat < min (2 ^ (m + 1 + A)) (2 ^ (m + 1 + B)) := by
  have hle : ∀ {C D : Nat}, C < D → 2 ^ (m + 1 + C) < 2 ^ (m + 1 + D) := by
    intro C D hCD
    exact Nat.pow_lt_pow_right (by decide) (by omega)
  obtain hlt | rfl | hlt := Nat.lt_trichotomy A B
  · have hpow := hle hlt
    rw [Nat.min_eq_left hpow.le, or_iff_right hpow.ne]
    exact forall₂_congr fun y _ => slot_eq_iff hlt
  · exact iff_of_true (fun _ _ => rfl) (Or.inl rfl)
  · have hpow := hle hlt
    rw [Nat.min_eq_right hpow.le, or_iff_right hpow.ne']
    exact forall₂_congr fun y _ => eq_comm.trans (slot_eq_iff hlt)

/-- Merged values whose slots agree count as recorded. -/
theorem Holds.merge (ha : a.Holds m B xs) (hb : b.Holds m C ys)
    (hslot : ∀ y ∈ ys, slot m.val C y.toNat = slot m.val B y.toNat) : (a.merge b).Holds m B (xs ++ ys) := by
  refine ⟨ha.shaped.merge b, ?_, ?_⟩
  · have hys : (ys.map BitVec.toNat).map (slot m.val C) = (ys.map BitVec.toNat).map (slot m.val B) := by
      rw [List.map_map, List.map_map]
      exact List.map_congr_left hslot
    rw [merge_counts ha hb, hys, List.map_append, List.map_append]
  · show a.total + b.total = _
    rw [ha.total, hb.total, List.length_append]

/-! ## Percentiles -/

/-- Two histograms of one shape that hold the same values, with one maximum, have the same
    percentiles. -/
theorem Holds.percentile_congr (ha : a.Holds m B xs) (hb : b.Holds m B xs) (hmax : a.maxValue = b.maxValue) (t : Nat) :
    a.percentile t = b.percentile t := by
  have hmag : a.subHalfMag = b.subHalfMag := ha.shaped.mag.trans hb.shaped.mag.symm
  have hhalf : a.subHalfCount = b.subHalfCount := by
    apply BitVec.eq_of_toNat_eq
    rw [ha.shaped.half, hb.shaped.half]
  have hend : ∀ i, a.highestEquivalent i = b.highestEquivalent i := by
    intro i
    unfold highestEquivalent valueFromIndex
    rw [hmag, hhalf]
  have hscan : ∀ target (cs : List Nat) i running, a.scan target i running cs = b.scan target i running cs := by
    intro target cs
    induction cs with
    | nil => intro i running; exact hmax
    | cons c cs ih => intro i running; rw [scan, scan, hend, ih]
  unfold percentile
  rw [ha.total, hb.total, ha.counts, hb.counts, hscan]

/-- A running count that ends at or past `t` reaches it somewhere. -/
theorem exists_reaches {t : Nat} (h1 : 1 ≤ t) : ∀ {cs : List Nat}, t ≤ cs.sum →
    ∃ k, k < cs.length ∧ (cs.take k).sum < t ∧ t ≤ (cs.take (k + 1)).sum := by
  intro cs
  induction cs using List.reverseRecOn with
  | nil =>
    intro ht
    rw [List.sum_nil] at ht
    omega
  | append_singleton cs c ih =>
    intro ht
    by_cases hbefore : t ≤ cs.sum
    · obtain ⟨k, hk, hlo, hhi⟩ := ih hbefore
      refine ⟨k, by rw [List.length_append]; omega, ?_, ?_⟩
      · rw [List.take_append_of_le_length (by omega)]
        exact hlo
      · rw [List.take_append_of_le_length (by omega)]
        exact hhi
    · refine ⟨cs.length, by rw [List.length_append, List.length_singleton]; omega, ?_, ?_⟩
      · rw [List.take_left]
        omega
      · rw [List.take_of_length_le (by rw [List.length_append, List.length_singleton])]
        exact ht

theorem sum_take_mono {i j : Nat} (hij : i ≤ j) (cs : List Nat) : (cs.take i).sum ≤ (cs.take j).sum := by
  have hsplit := congrArg List.sum (List.take_append_drop i (cs.take j))
  rw [List.sum_append, List.take_take, Nat.min_eq_left hij] at hsplit
  omega

/-- The percentile of a rank is in the first buckets exactly when their counts reach it. -/
theorem percentile_le_iff (hs : h.Shaped m B) {t k : Nat} (h1 : 1 ≤ t) (ht : t ≤ h.counts.sum) (htotal : h.total ≠ 0) :
    (h.percentile t).toNat ≤ LogLinear.upper m.val k ↔ t ≤ (h.counts.take (k + 1)).sum := by
  have hfits := hs.fits
  obtain ⟨j, hj, hlo, hhi⟩ := exists_reaches h1 ht
  have hused : j < (64 - m.val + 1) * 2 ^ m.val := by
    refine Nat.lt_of_lt_of_le hj ?_
    rw [hs.size]
    exact Nat.mul_le_mul_right _ (by omega)
  have hat : (h.percentile t).toNat = LogLinear.upper m.val j := by
    unfold percentile
    rw [if_neg htotal, if_neg (by omega), scan_eq hj (by omega) (by omega), Nat.zero_add, highestEquivalent_toNat hs hused]
  rw [hat, (LogLinear.upper_strictMono m.val).le_iff_le]
  constructor
  · intro hjk
    exact Nat.le_trans hhi (sum_take_mono (by omega) _)
  · intro hreach
    by_contra hgt
    have hshort := sum_take_mono (show k + 1 ≤ j by omega) h.counts
    omega

/-! ## Where merging fails -/

/-- The slot of a value past the shorter range, in the longer array. -/
theorem short_le_slot {m v : Nat} (hBC : B < C) (hout : 2 ^ (m + 1 + B) ≤ v) : (B + 1 + 1) * 2 ^ m ≤ slot m C v := by
  have hne : ¬ LogLinear.index m v < (B + 1 + 1) * 2 ^ m := by
    rw [LogLinear.index_lt_iff]
    omega
  have hlong : (B + 1 + 1 + 1) * 2 ^ m ≤ (C + 1 + 1) * 2 ^ m := Nat.mul_le_mul_right _ (by omega)
  have hpos := Nat.two_pow_pos m
  rw [Nat.add_mul (B + 1 + 1) 1] at hlong
  unfold slot
  omega

/-- One value past the shorter range leaves fewer in its slots than were recorded. -/
theorem countP_short_lt (hBC : B < C) {y : BitVec 64} (hy : y ∈ ys) (hout : 2 ^ (m.val + 1 + B) ≤ y.toNat) :
    ((ys.map BitVec.toNat).map (slot m.val C)).countP (fun i => decide (i < (B + 1 + 1) * 2 ^ m.val)) < ys.length := by
  have hle := List.countP_le_length (p := fun i => decide (i < (B + 1 + 1) * 2 ^ m.val))
    (l := (ys.map BitVec.toNat).map (slot m.val C))
  have hne : ¬ ((ys.map BitVec.toNat).map (slot m.val C)).countP (fun i => decide (i < (B + 1 + 1) * 2 ^ m.val)) =
      ((ys.map BitVec.toNat).map (slot m.val C)).length := by
    rw [List.countP_eq_length]
    intro hall
    have hin := of_decide_eq_true (hall _ (List.mem_map_of_mem (List.mem_map_of_mem hy)))
    have hge := short_le_slot hBC hout
    omega
  rw [List.length_map, List.length_map] at hle hne
  omega

theorem merge_sum_take (ha : a.Holds m B xs) (hb : b.Holds m C ys) {n : Nat} (hn : n ≤ (B + 1 + 1) * 2 ^ m.val) :
    ((a.merge b).counts.take n).sum =
      ((xs.map BitVec.toNat).map (slot m.val B)).countP (fun i => decide (i < n)) +
        ((ys.map BitVec.toNat).map (slot m.val C)).countP (fun i => decide (i < n)) := by
  rw [merge_counts ha hb, sum_take_tally hn, List.countP_append]

/-- A longer array drops what is past the shorter one. -/
theorem merge_drops (ha : a.Holds m B xs) (hb : b.Holds m C ys) (hBC : B < C) {y : BitVec 64} (hy : y ∈ ys)
    (hout : 2 ^ (m.val + 1 + B) ≤ y.toNat) : (a.merge b).counts.sum < (a.merge b).count := by
  have hsize : (a.merge b).counts.length = (B + 1 + 1) * 2 ^ m.val := (ha.shaped.merge b).size
  have htake := merge_sum_take ha hb (Nat.le_refl _)
  rw [← hsize, List.take_length, hsize] at htake
  have hxs := List.countP_le_length (p := fun i => decide (i < (B + 1 + 1) * 2 ^ m.val))
    (l := (xs.map BitVec.toNat).map (slot m.val B))
  rw [List.length_map, List.length_map] at hxs
  have hys := countP_short_lt hBC hy hout
  show _ < a.total + b.total
  rw [ha.total, hb.total]
  omega

/-- Merging adds all of a shorter array's samples to the buckets the two share, also those
    past its range. -/
theorem merge_shared_sum (ha : a.Holds m B xs) (hb : b.Holds m C ys) (hCB : C < B) {y : BitVec 64} (hy : y ∈ ys)
    (hout : 2 ^ (m.val + 1 + C) ≤ y.toNat) {h : LatencyHistogram} (hh : h.Holds m B (xs ++ ys)) :
    (h.counts.take ((C + 1 + 1) * 2 ^ m.val)).sum < ((a.merge b).counts.take ((C + 1 + 1) * 2 ^ m.val)).sum ∧
      ((a.merge b).counts.take ((C + 1 + 1) * 2 ^ m.val)).sum ≤ h.counts.sum := by
  have hshort : (C + 1 + 1) * 2 ^ m.val ≤ (B + 1 + 1) * 2 ^ m.val := Nat.mul_le_mul_right _ (by omega)
  have hmerged := merge_sum_take ha hb hshort
  have hall : ((ys.map BitVec.toNat).map (slot m.val C)).countP (fun i => decide (i < (C + 1 + 1) * 2 ^ m.val)) =
      ys.length := by
    rw [List.countP_eq_length.mpr, List.length_map, List.length_map]
    intro i hi
    obtain ⟨v, -, rfl⟩ := List.mem_map.mp hi
    exact decide_eq_true (slot_lt m.val C v)
  have hrecorded : (h.counts.take ((C + 1 + 1) * 2 ^ m.val)).sum =
      ((xs.map BitVec.toNat).map (slot m.val B)).countP (fun i => decide (i < (C + 1 + 1) * 2 ^ m.val)) +
        ((ys.map BitVec.toNat).map (slot m.val B)).countP (fun i => decide (i < (C + 1 + 1) * 2 ^ m.val)) := by
    rw [hh.counts, sum_take_tally hshort, List.map_append, List.map_append, List.countP_append]
  have hsum : h.counts.sum = xs.length + ys.length := by
    rw [hh.sum_counts]
    show h.total = _
    rw [hh.total, List.length_append]
  have hxs := List.countP_le_length (p := fun i => decide (i < (C + 1 + 1) * 2 ^ m.val))
    (l := (xs.map BitVec.toNat).map (slot m.val B))
  rw [List.length_map, List.length_map] at hxs
  have hfewer := countP_short_lt hCB hy hout
  omega

/-- A shorter array's last counter adds values past its range to an ordinary bucket, and the
    percentile of the rank that bucket then reaches is too low. -/
theorem merge_misplaces (ha : a.Holds m B xs) (hb : b.Holds m C ys) (hCB : C < B) {y : BitVec 64} (hy : y ∈ ys)
    (hout : 2 ^ (m.val + 1 + C) ≤ y.toNat) {h : LatencyHistogram} (hh : h.Holds m B (xs ++ ys)) :
    ∃ t, (a.merge b).percentile t ≠ h.percentile t := by
  have hpos : 0 < (C + 1 + 1) * 2 ^ m.val := Nat.mul_pos (by omega) (Nat.two_pow_pos _)
  obtain ⟨k, hk⟩ : ∃ k, (C + 1 + 1) * 2 ^ m.val = k + 1 := ⟨(C + 1 + 1) * 2 ^ m.val - 1, by omega⟩
  obtain ⟨hmore, hwithin⟩ := merge_shared_sum ha hb hCB hy hout hh
  rw [hk] at hmore hwithin
  have hreach : ((a.merge b).counts.take (k + 1)).sum ≤ (a.merge b).counts.sum := by
    have hshort : (C + 1 + 1) * 2 ^ m.val ≤ (B + 1 + 1) * 2 ^ m.val := Nat.mul_le_mul_right _ (by omega)
    have hle := sum_take_mono hshort (a.merge b).counts
    rw [← (ha.shaped.merge b).size, List.take_length, hk] at hle
    exact hle
  have htotal : h.total ≠ 0 := by
    have hcount := hh.sum_counts
    unfold count at hcount
    omega
  have hmtotal : (a.merge b).total ≠ 0 := by
    have hsome := hh.total
    rw [List.length_append] at hsome
    show a.total + b.total ≠ 0
    rw [ha.total, hb.total]
    omega
  refine ⟨((a.merge b).counts.take (k + 1)).sum, ?_⟩
  intro heq
  have hle := (percentile_le_iff (ha.shaped.merge b) (by omega) hreach hmtotal).mpr (Nat.le_refl _)
  rw [heq, percentile_le_iff hh.shaped (by omega) hwithin htotal] at hle
  omega

end LatencyHistogram

open LatencyHistogram

/-! ## The law -/

section
variable {m : Magnitude} {highestA highestB : BitVec 64} {fuelA fuelB : Nat} {a b : LatencyHistogram}

/-- Count, minimum and maximum are always those of both sequences. -/
theorem merge_extremes (ha : construct fuelA highestA m = some a) (hb : construct fuelB highestB m = some b)
    (xs ys : List (BitVec 64)) :
    ((a.recordAll xs).merge (b.recordAll ys)).count = (xs ++ ys).length ∧
      ((a.recordAll xs).merge (b.recordAll ys)).min.toNat = ((xs ++ ys).map BitVec.toNat).min?.getD 0 ∧
      ((a.recordAll xs).merge (b.recordAll ys)).max.toNat = ((xs ++ ys).map BitVec.toNat).max?.getD 0 := by
  obtain ⟨A, hA, -⟩ := construct_holds ha xs
  obtain ⟨B, hB, -⟩ := construct_holds hb ys
  have hseen := ((construct_seen ha).recordAll xs).merge ((construct_seen hb).recordAll ys)
  have htotal : ((a.recordAll xs).merge (b.recordAll ys)).total = (xs ++ ys).length := by
    show (a.recordAll xs).total + (b.recordAll ys).total = _
    rw [hA.total, hB.total, List.length_append]
  exact ⟨htotal, hseen.min_eq htotal, hseen.max_eq⟩

end

/-- Merging is recording everything in one histogram exactly when the ranges agree, or every
    value of the other histogram is below both. -/
theorem merge_records_iff (m : Magnitude) (highestA highestB : BitVec 64) (fuelA fuelB : Nat) (a b : LatencyHistogram)
    (ha : construct fuelA highestA m = some a) (hb : construct fuelB highestB m = some b) (xs ys : List (BitVec 64)) :
    ((a.recordAll xs).merge (b.recordAll ys)).ReadsAs a xs ys ↔
      range m highestA = range m highestB ∨ ∀ y ∈ ys, y.toNat < min (range m highestA) (range m highestB) := by
  obtain ⟨A, hA, hrangeA⟩ := construct_holds ha xs
  obtain ⟨B, hB, hrangeB⟩ := construct_holds hb ys
  obtain ⟨A', hall, hrangeA'⟩ := construct_holds ha (xs ++ ys)
  obtain rfl : A' = A := by omega
  unfold range
  rw [← hrangeA, ← hrangeB, ← slots_agree_iff]
  constructor
  · intro hreads y hy
    by_contra hne
    obtain hlt | rfl | hlt := Nat.lt_trichotomy A' B
    · have hlost := merge_drops hA hB hlt hy (not_lt.mp (mt (slot_eq_iff hlt).mpr hne))
      have hbins := hreads.bins
      rw [sum_bins] at hbins
      omega
    · exact hne rfl
    · obtain ⟨t, ht⟩ := merge_misplaces hA hB hlt hy (not_lt.mp (mt (slot_eq_iff hlt).mpr (Ne.symm hne))) hall
      exact ht (hreads.percentiles t)
  · intro hslot
    have hmerged := hA.merge hB hslot
    obtain ⟨hcount, hmin, hmax⟩ := merge_extremes ha hb xs ys
    have hgreatest : ((a.recordAll xs).merge (b.recordAll ys)).max = (a.recordAll (xs ++ ys)).max := by
      apply BitVec.eq_of_toNat_eq
      rw [hmax, ((construct_seen ha).recordAll (xs ++ ys)).max_eq, List.nil_append]
    exact ⟨hcount, hmin, hmax, by rw [sum_bins, hmerged.sum_counts], hmerged.percentile_congr hall hgreatest⟩

/-- The magnitude of 1 significant figure: `ceil(log2(20)) - 1`. -/
def oneFigure : Magnitude := ⟨4, by decide, by decide⟩

/-- A wider histogram merged into a narrower one that still holds its values. -/
theorem merge_records_iff_narrow :
    ∃ a b, construct 64 32#64 oneFigure = some a ∧ construct 64 64#64 oneFigure = some b ∧
      range oneFigure 32#64 < range oneFigure 64#64 ∧
      ((a.recordAll [7#64, 40#64]).merge (b.recordAll [20#64, 31#64])).ReadsAs a [7#64, 40#64] [20#64, 31#64] := by
  obtain ⟨a, ha⟩ := Option.isSome_iff_exists.mp (construct_isSome (by decide : (32#64).toNat ≤ 2 ^ 63) oneFigure)
  obtain ⟨b, hb⟩ := Option.isSome_iff_exists.mp (construct_isSome (by decide : (64#64).toNat ≤ 2 ^ 63) oneFigure)
  have hnarrow : range oneFigure 32#64 = 32 := by
    show 2 ^ max 5 (Nat.clog 2 (2 ^ 5)) = 32
    rw [Nat.clog_pow 2 5 (by decide)]
    rfl
  have hwide : range oneFigure 64#64 = 64 := by
    show 2 ^ max 5 (Nat.clog 2 (2 ^ 6)) = 64
    rw [Nat.clog_pow 2 6 (by decide)]
    rfl
  refine ⟨a, b, ha, hb, by rw [hnarrow, hwide]; decide, (merge_records_iff oneFigure _ _ 64 64 a b ha hb _ _).mpr (Or.inr ?_)⟩
  rw [hnarrow, hwide]
  simp

/-- Merged into a histogram for values up to 32, a sample of 40 is counted and in no bin. -/
theorem merge_loses_samples :
    ∃ a b, construct 64 32#64 oneFigure = some a ∧ construct 64 64#64 oneFigure = some b ∧
      ((a.recordAll []).merge (b.recordAll [40#64])).count = 1 ∧
      (((a.recordAll []).merge (b.recordAll [40#64])).bins.map Bin.count).sum = 0 ∧
      ¬ ((a.recordAll []).merge (b.recordAll [40#64])).ReadsAs a [] [40#64] := by
  refine ⟨_, _, rfl, rfl, rfl, by decide, ?_⟩
  intro hreads
  have hbins := hreads.bins
  revert hbins
  decide

end Lob
