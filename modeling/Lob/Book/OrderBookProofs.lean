/-
  Lob.Book.OrderBookProofs — the dense book is a lawful book.

  `OrderBook.Ok`: a bit is set exactly at the occupied levels below `span`, the summary
  has a bit exactly for the non-zero words, and an occupied level sits at its price's
  index. `highest_eq` and `lowest_eq` reduce the two-level scans to a scan over all
  indices; `occupy` and `vacate` are the two ways a level changes.
-/

import Lob.Book.OrderBook

namespace Lob

open Lob.Base.Bits Lob.Base.Sorted

namespace OrderBook

theorem offset_inj (p : Price) {i j : Nat} : p + (i : Int) = p + (j : Int) ↔ i = j :=
  (add_right_inj p).trans Int.ofNat_inj

theorem shiftRight_six (i : Nat) : i >>> 6 = i / 64 := Nat.shiftRight_eq_div_pow i 6
theorem and_sixty_three (i : Nat) : i &&& 63 = i % 64 := Nat.and_two_pow_sub_one_eq_mod i 6

@[simp] theorem setAt_same {α : Type} (f : Side → Nat → α) (s : Side) (i : Nat) (v : α) : setAt f s i v s i = v := by
  simp [setAt]

theorem setAt_apply {α : Type} (f : Side → Nat → α) (s t : Side) (i j : Nat) (v : α) :
    setAt f s i v t j = if t = s ∧ j = i then v else f t j := rfl

/-- The summary has a bit exactly for the non-zero words. -/
def Coherent (b : OrderBook) : Prop :=
  ∀ s w, (b.summary s (w / 64)).getLsbD (w % 64) = true ↔ b.words s w ≠ 0#64

structure Ok (b : OrderBook) : Prop where
  band : b.minPrice ≤ b.maxPrice
  width : b.maxPrice - b.minPrice ≤ kMaxPrice
  span : b.span = (b.maxPrice - b.minPrice).toNat + 1
  bit : ∀ s i, b.testBit s i = true ↔ i < b.span ∧ (b.levels s i).empty = false
  coherent : Coherent b
  price : ∀ s i, (b.levels s i).empty = false → (b.levels s i).price = b.minPrice + i
  vacant : ∀ s i, (b.levels s i).empty = true → b.levels s i = {}

variable {b b' : OrderBook} {s : Side} {i : Nat}

/-! ## Set and clear -/

theorem testBit_eq (b : OrderBook) (s : Side) (i : Nat) :
    b.testBit s i = (b.words s (i / 64)).getLsbD (i % 64) := by
  unfold testBit; rw [shiftRight_six, and_sixty_three]

theorem words_ne_zero (h : b.testBit s i = true) : b.words s (i / 64) ≠ 0#64 := by
  rw [testBit_eq] at h
  intro e
  rw [e] at h
  simp at h

theorem testBit_setBit (b : OrderBook) (s t : Side) (i j : Nat) :
    (b.setBit s i).testBit t j = (decide (t = s ∧ j = i) || b.testBit t j) := by
  rw [testBit_eq, testBit_eq]
  unfold setBit
  simp only [setAt_apply, shiftRight_six, and_sixty_three]
  by_cases h : t = s ∧ j / 64 = i / 64
  · obtain ⟨rfl, hw⟩ := h
    rw [if_pos ⟨rfl, hw⟩, getLsbD_setIn (Nat.mod_lt _ (by decide)), hw]
    congr 1
    simp only [true_and, decide_eq_decide]
    omega
  · rw [if_neg h]
    have : ¬ (t = s ∧ j = i) := fun e => h ⟨e.1, by rw [e.2]⟩
    simp [this]

theorem testBit_clearBit (b : OrderBook) (s t : Side) (i j : Nat) :
    (b.clearBit s i).testBit t j = (decide (¬ (t = s ∧ j = i)) && b.testBit t j) := by
  have hw : (b.clearBit s i).words = setAt b.words s (i / 64) (clearIn (b.words s (i / 64)) (i % 64)) := by
    unfold clearBit
    simp only [shiftRight_six, and_sixty_three]
    split <;> rfl
  rw [testBit_eq, testBit_eq, hw, setAt_apply]
  by_cases h : t = s ∧ j / 64 = i / 64
  · obtain ⟨rfl, hj⟩ := h
    rw [if_pos ⟨rfl, hj⟩, getLsbD_clearIn (Nat.mod_lt _ (by decide)), hj]
    congr 1
    simp only [true_and, decide_eq_decide]
    omega
  · rw [if_neg h]
    have : ¬ (t = s ∧ j = i) := fun e => h ⟨e.1, by rw [e.2]⟩
    simp [this]

/-- Writing an occupied level again leaves its bit as it was. -/
theorem bit_kept (ht : b.testBit s i = true) (t : Side) (j : Nat) :
    b.testBit t j = (decide (t = s ∧ j = i) || b.testBit t j) := by
  by_cases h : t = s ∧ j = i
  · obtain ⟨rfl, rfl⟩ := h; simp [ht]
  · simp [h]

@[simp] theorem clearBit_minPrice (b : OrderBook) (s : Side) (i : Nat) : (b.clearBit s i).minPrice = b.minPrice := by
  unfold clearBit; simp only; split <;> rfl

@[simp] theorem clearBit_maxPrice (b : OrderBook) (s : Side) (i : Nat) : (b.clearBit s i).maxPrice = b.maxPrice := by
  unfold clearBit; simp only; split <;> rfl

@[simp] theorem clearBit_span (b : OrderBook) (s : Side) (i : Nat) : (b.clearBit s i).span = b.span := by
  unfold clearBit; simp only; split <;> rfl

@[simp] theorem clearBit_levels (b : OrderBook) (s : Side) (i : Nat) : (b.clearBit s i).levels = b.levels := by
  unfold clearBit; simp only; split <;> rfl

@[simp] theorem clearBit_orderCounts (b : OrderBook) (s : Side) (i : Nat) :
    (b.clearBit s i).orderCounts = b.orderCounts := by
  unfold clearBit; simp only; split <;> rfl

theorem setIn_ne_zero (w : BitVec 64) {i : Nat} (hi : i < 64) : setIn w i ≠ 0#64 := by
  intro e
  have := eq_zero_iff.mp e i hi
  rw [getLsbD_setIn hi] at this
  simp at this

theorem coherent_setBit (h : Coherent b) (s : Side) (i : Nat) : Coherent (b.setBit s i) := by
  intro t w
  have hw := h t w
  unfold setBit
  simp only [setAt_apply, shiftRight_six, and_sixty_three]
  by_cases h1 : t = s ∧ w / 64 = i / 64 / 64
  · obtain ⟨rfl, hq⟩ := h1
    rw [if_pos ⟨rfl, hq⟩, getLsbD_setIn (Nat.mod_lt _ (by decide)), ← hq]
    by_cases h2 : w = i / 64
    · subst h2
      simp [setIn_ne_zero _ (Nat.mod_lt i (by decide : 64 > 0))]
    · have h3 : w % 64 ≠ i / 64 % 64 := by omega
      simp only [h2, h3, decide_false, Bool.false_or, and_false, if_false]
      exact hw
  · rw [if_neg h1, if_neg (fun e => h1 ⟨e.1, by rw [e.2]⟩)]
    exact hw

theorem coherent_clearBit (h : Coherent b) (s : Side) (i : Nat) : Coherent (b.clearBit s i) := by
  intro t w
  have hw := h t w
  unfold clearBit
  simp only [setAt_same, shiftRight_six, and_sixty_three]
  by_cases hz : clearIn (b.words s (i / 64)) (i % 64) = 0#64
  · -- the word ran empty, its summary bit goes
    rw [if_pos (show _ = (0 : BitVec 64) from hz)]
    simp only [setAt_apply]
    by_cases h1 : t = s ∧ w / 64 = i / 64 / 64
    · obtain ⟨rfl, hq⟩ := h1
      rw [if_pos ⟨rfl, hq⟩, getLsbD_clearIn (Nat.mod_lt _ (by decide)), ← hq]
      by_cases h2 : w = i / 64
      · subst h2; simp [hz]
      · have h3 : w % 64 ≠ i / 64 % 64 := by omega
        simp only [h2, h3, ne_eq, not_false_eq_true, decide_true, Bool.true_and, and_false, if_false]
        exact hw
    · rw [if_neg h1, if_neg (fun e => h1 ⟨e.1, by rw [e.2]⟩)]
      exact hw
  · rw [if_neg (show ¬ _ = (0 : BitVec 64) from hz)]
    simp only [setAt_apply]
    by_cases h1 : t = s ∧ w = i / 64
    · obtain ⟨rfl, rfl⟩ := h1
      simp only [and_self, if_true, ne_eq, hz, not_false_eq_true, iff_true]
      refine hw.mpr fun e => hz ?_
      rw [e]; unfold clearIn; simp
    · rw [if_neg h1]
      exact hw

/-! ## The scans -/

theorem Ok.lt_span (h : Ok b) (ht : b.testBit s i = true) : i < b.span := ((h.bit s i).mp ht).1

theorem summary_of_bit (h : Ok b) (ht : b.testBit s i = true) :
    i / 64 / 64 < b.summarySize ∧ b.summary s (i / 64 / 64) ≠ 0#64 ∧
      (b.summary s (i / 64 / 64)).getLsbD (i / 64 % 64) = true := by
  have hbit := (h.coherent s (i / 64)).mpr (words_ne_zero ht)
  refine ⟨?_, ?_, hbit⟩
  · have := h.lt_span ht
    unfold summarySize; omega
  · intro e
    rw [e] at hbit
    simp at hbit

theorem highest_eq (h : Ok b) (s : Side) : b.highestSet s = (List.range b.span).reverse.find? (b.testBit s) := by
  unfold highestSet
  cases hf : (List.range b.summarySize).reverse.find? fun w => b.summary s w != 0 with
  | none =>
    symm
    rw [Option.bind_eq_bind, Option.bind_none, List.find?_eq_none]
    intro i _ ht
    obtain ⟨hlt, hne, _⟩ := summary_of_bit h ht
    have := List.find?_eq_none.mp hf (i / 64 / 64) (by simpa using hlt)
    simp at this
    exact hne this
  | some w =>
    obtain ⟨_, hw, hmax⟩ := find_down.mp hf
    have hw : b.summary s w ≠ 0#64 := by simpa using hw
    obtain ⟨hlt, hset, htop⟩ := topBit_spec hw
    have hword : b.words s (w * 64 + topBit (b.summary s w)) ≠ 0#64 := by
      refine (h.coherent s _).mp ?_
      rw [show (w * 64 + topBit (b.summary s w)) / 64 = w by omega,
        show (w * 64 + topBit (b.summary s w)) % 64 = topBit (b.summary s w) by omega]
      exact hset
    obtain ⟨hlt', hset', htop'⟩ := topBit_spec hword
    simp only [Option.bind_eq_bind, Option.bind_some]
    symm
    rw [find_down]
    have ht : b.testBit s ((w * 64 + topBit (b.summary s w)) * 64 +
        topBit (b.words s (w * 64 + topBit (b.summary s w)))) = true := by
      rw [testBit_eq, Nat.mul_comm _ 64, Nat.mul_add_div (by decide), Nat.div_eq_of_lt hlt', Nat.mul_add_mod,
        Nat.mod_eq_of_lt hlt', Nat.add_zero]
      exact hset'
    refine ⟨h.lt_span ht, ht, fun j _ hj => ?_⟩
    obtain ⟨hjlt, hjne, hjbit⟩ := summary_of_bit h hj
    have h1 := hmax _ hjlt (by simpa using hjne)
    rw [testBit_eq] at hj
    -- the words of `j`, then its bit, are no higher than the ones found
    have h2 : j / 64 ≤ w * 64 + topBit (b.summary s w) := by
      rcases Nat.lt_or_eq_of_le h1 with h1 | h1
      · omega
      · rw [h1] at hjbit
        have := htop _ (Nat.mod_lt _ (by decide)) hjbit
        omega
    rcases Nat.lt_or_eq_of_le h2 with h2 | h2
    · omega
    · rw [h2] at hj
      have := htop' _ (Nat.mod_lt _ (by decide)) hj
      omega

theorem lowest_eq (h : Ok b) (s : Side) : b.lowestSet s = (List.range b.span).find? (b.testBit s) := by
  unfold lowestSet
  cases hf : (List.range b.summarySize).find? fun w => b.summary s w != 0 with
  | none =>
    symm
    rw [Option.bind_eq_bind, Option.bind_none, List.find?_eq_none]
    intro i _ ht
    obtain ⟨hlt, hne, _⟩ := summary_of_bit h ht
    have := List.find?_eq_none.mp hf (i / 64 / 64) (by simpa using hlt)
    simp at this
    exact hne this
  | some w =>
    obtain ⟨_, hw, hmin⟩ := find_up.mp hf
    have hw : b.summary s w ≠ 0#64 := by simpa using hw
    obtain ⟨hlt, hset, hlow⟩ := lowBit_spec hw
    have hword : b.words s (w * 64 + lowBit (b.summary s w)) ≠ 0#64 := by
      refine (h.coherent s _).mp ?_
      rw [show (w * 64 + lowBit (b.summary s w)) / 64 = w by omega,
        show (w * 64 + lowBit (b.summary s w)) % 64 = lowBit (b.summary s w) by omega]
      exact hset
    obtain ⟨hlt', hset', hlow'⟩ := lowBit_spec hword
    simp only [Option.bind_eq_bind, Option.bind_some]
    symm
    rw [find_up]
    have ht : b.testBit s ((w * 64 + lowBit (b.summary s w)) * 64 +
        lowBit (b.words s (w * 64 + lowBit (b.summary s w)))) = true := by
      rw [testBit_eq, Nat.mul_comm _ 64, Nat.mul_add_div (by decide), Nat.div_eq_of_lt hlt', Nat.mul_add_mod,
        Nat.mod_eq_of_lt hlt', Nat.add_zero]
      exact hset'
    refine ⟨h.lt_span ht, ht, fun j _ hj => ?_⟩
    obtain ⟨hjlt, hjne, hjbit⟩ := summary_of_bit h hj
    have h1 := hmin _ hjlt (by simpa using hjne)
    rw [testBit_eq] at hj
    have h2 : w * 64 + lowBit (b.summary s w) ≤ j / 64 := by
      rcases Nat.lt_or_eq_of_le h1 with h1 | h1
      · omega
      · rw [← h1] at hjbit
        have := hlow _ (Nat.mod_lt _ (by decide)) hjbit
        omega
    rcases Nat.lt_or_eq_of_le h2 with h2 | h2
    · omega
    · rw [← h2] at hj
      have := hlow' _ (Nat.mod_lt _ (by decide)) hj
      omega

/-! ## The occupied levels, best first -/

/-- Every index, in the order a side is walked. -/
def order (b : OrderBook) : Side → List Nat
  | .buy => (List.range b.span).reverse
  | .sell => List.range b.span

def occupied (b : OrderBook) (s : Side) : List Nat := (b.order s).filter (b.testBit s)

def levelList (b : OrderBook) (s : Side) : List PriceLevel := (b.occupied s).map (b.levels s)

theorem mem_order : i ∈ b.order s ↔ i < b.span := by cases s <;> simp [order]

theorem mem_occupied (h : Ok b) : i ∈ b.occupied s ↔ b.testBit s i = true := by
  unfold occupied
  rw [List.mem_filter, mem_order]
  exact ⟨fun h' => h'.2, fun ht => ⟨h.lt_span ht, ht⟩⟩

theorem Ok.occ_price (h : Ok b) (ht : b.testBit s i = true) : (b.levels s i).price = b.minPrice + i :=
  h.price s i ((h.bit s i).mp ht).2

theorem order_pairwise (b : OrderBook) (s : Side) :
    (b.order s).Pairwise fun (i j : Nat) => better s (b.minPrice + (i : Int)) (b.minPrice + (j : Int)) := by
  cases s
  · unfold order
    rw [List.pairwise_reverse]
    refine List.pairwise_lt_range.imp fun {i j} hij => ?_
    exact Int.add_lt_add_left (Int.ofNat_lt.mpr hij) _
  · refine List.pairwise_lt_range.imp fun {i j} hij => ?_
    exact Int.add_lt_add_left (Int.ofNat_lt.mpr hij) _

theorem ordered_levels (h : Ok b) (s : Side) : Ordered (better s) PriceLevel.price (b.levelList s) := by
  unfold Ordered levelList
  rw [List.pairwise_map]
  refine List.Pairwise.imp_of_mem ?_ ((order_pairwise b s).sublist List.filter_sublist)
  intro i j hi hj hij
  rw [h.occ_price ((mem_occupied h).mp hi), h.occ_price ((mem_occupied h).mp hj)]
  exact hij

theorem bestIndex_eq (h : Ok b) (s : Side) : b.bestIndex s = (b.order s).find? (b.testBit s) := by
  cases s
  · exact highest_eq h .buy
  · exact lowest_eq h .sell

theorem after_rest (b : OrderBook) (s : Side) : ∀ i x xs, b.after s i = x :: xs → xs = b.after s x := by
  cases s
  · exact fun i x xs => down_scan
  · exact fun i x xs => up_scan

theorem order_rest (b : OrderBook) (s : Side) : ∀ x xs, b.order s = x :: xs → xs = b.after s x := by
  cases s
  · exact fun x xs => down_scan
  · intro x xs h
    unfold order at h
    rw [List.range_eq_range', ← Nat.sub_zero b.span] at h
    exact up_scan h

/-- The occupied indices from the best one on. -/
theorem occupied_eq (h : Ok b) (s : Side) : b.occupied s =
    match b.bestIndex s with
    | none => []
    | some i => i :: (b.after s i).filter (b.testBit s) := by
  rw [bestIndex_eq h]
  cases hf : (b.order s).find? (b.testBit s) with
  | none =>
    unfold occupied
    rw [List.filter_eq_nil_iff]
    exact List.find?_eq_none.mp hf
  | some i => exact find_filter (after_rest b s) (order_rest b s) hf

theorem bestLevel_eq (h : Ok b) (s : Side) : b.bestLevel s = (b.levelList s).head? := by
  unfold bestLevel levelList
  rw [occupied_eq h]
  cases b.bestIndex s <;> rfl

theorem bestIndex_bit (h : Ok b) (hi : b.bestIndex s = some i) : b.testBit s i = true := by
  rw [bestIndex_eq h] at hi
  exact List.find?_some hi

theorem bestPrice_eq (h : Ok b) (s : Side) : b.bestPrice s = topPrice (b.levelList s) := by
  unfold bestPrice levelList topPrice
  rw [occupied_eq h]
  cases hi : b.bestIndex s with
  | none => rfl
  | some i => simp [h.occ_price (bestIndex_bit h hi)]

/-! ## Walking the levels -/

theorem index_of_offset (h : Ok b) (hi : i < b.span) : b.index (b.minPrice + i) = some i := by
  have hs := h.span
  have hw := h.width
  unfold kMaxPrice at hw
  unfold index kNoPrice kMaxPrice
  unfold Price at *
  rw [show b.minPrice + (i : Int) - b.minPrice = i from add_sub_cancel_left _ _, if_pos (by omega), Int.emod_eq_of_lt (by omega) (by omega)]
  rfl

theorem slot_eq_some (h : Ok b) {p : Price} : b.slot p = some i ↔ i < b.span ∧ p = b.minPrice + i := by
  have hs := h.span
  have hw := h.width
  constructor
  · intro e
    unfold slot index at e
    unfold kMaxPrice at hw
    unfold kNoPrice kMaxPrice at e
    split at e
    · simp only [Option.bind_eq_bind, Option.bind_some] at e
      split at e
      · cases e
        refine ⟨by assumption, ?_⟩
        unfold Price at *
        omega
      · cases e
    · cases e
  · intro ⟨hi, hp⟩
    subst hp
    unfold slot
    rw [index_of_offset h hi]
    simp [hi]

theorem slot_none (h : Ok b) {p : Price} (hp : b.slot p = none) : b.inBand p = false := by
  have hs := h.span
  by_contra hin
  have hin : p ≥ b.minPrice ∧ p ≤ b.maxPrice := by
    unfold inBand at hin; simpa using hin
  have hi : (p - b.minPrice).toNat < b.span ∧ p = b.minPrice + ((p - b.minPrice).toNat : Int) := by
    unfold Price at *; omega
  have := (slot_eq_some h).mpr hi
  rw [hp] at this
  cases this

/-- The walk goes on from any occupied level but one at the sentinel, which only the last may be. -/
theorem next_eq (h : Ok b) (ht : b.testBit s i = true) (hp : (b.levels s i).price ≠ kNoPrice ∨ b.after s i = []) :
    b.nextLevelTowardMid s (b.levels s i).price = ((b.after s i).find? (b.testBit s)).map (b.levels s) := by
  unfold nextLevelTowardMid
  by_cases hz : (b.levels s i).price = kNoPrice
  · rw [if_pos hz, hp.resolve_left fun hp => hp hz]
    rfl
  · rw [if_neg hz, h.occ_price ht, index_of_offset h (h.lt_span ht)]
    cases hf : (b.after s i).find? (b.testBit s) <;> simp [hf]

/-- No occupied level sits at the sentinel. -/
def Real (b : OrderBook) (s : Side) : Prop := ∀ i, b.testBit s i = true → (b.levels s i).price ≠ kNoPrice

theorem real_of (h : Ok b) (hr : kNoPrice < b.minPrice ∨ ∀ l ∈ b.levelList s, l.price ≠ kNoPrice) : Real b s := by
  intro i ht
  rcases hr with hr | hr
  · rw [h.occ_price ht]
    unfold Price at *; omega
  · exact hr _ (List.mem_map_of_mem ((mem_occupied h).mpr ht))

theorem marketableLoop_eq (h : Ok b) (side : Side) (limit : Price) (hr : Real b (opposite side)) :
    ∀ n i total, b.testBit (opposite side) i = true →
      ((b.after (opposite side) i).filter (b.testBit (opposite side))).length < n →
      b.marketableLoop side limit n (some (b.levels (opposite side) i)) total = total + UInt64.ofNat
        (crossedQty side limit ((i :: (b.after (opposite side) i).filter (b.testBit (opposite side))).map
          (b.levels (opposite side)))) := by
  intro n
  induction n with
  | zero => intro i total _ hn; omega
  | succ n ih =>
    intro i total ht hn
    unfold marketableLoop crossedQty
    by_cases hc : crosses side limit (b.levels (opposite side) i).price = true
    · rw [if_pos hc, List.map_cons, List.takeWhile_cons_of_pos (by exact hc), List.map_cons, List.sum_cons,
        next_eq h ht (Or.inl (hr i ht))]
      cases hf : (b.after (opposite side) i).find? (b.testBit (opposite side)) with
      | none =>
        have : (b.after (opposite side) i).filter (b.testBit (opposite side)) = [] := by
          rw [List.filter_eq_nil_iff]; exact List.find?_eq_none.mp hf
        rw [this]
        cases n <;> simp [marketableLoop]
      | some j =>
        have hj := find_filter (after_rest b _) (after_rest b _ i) hf
        rw [hj] at hn ⊢
        rw [Option.map_some, ih j _ (List.find?_some hf) (by simpa using hn), UInt64.ofNat_add, UInt64.ofNat_toNat,
          UInt64.add_assoc]
        rfl
    · rw [if_neg hc, List.map_cons, List.takeWhile_cons_of_neg (by exact hc)]
      simp

theorem marketableQty_eq (h : Ok b) (side : Side) (limit : Price) (hr : Real b (opposite side)) :
    b.marketableQty side limit = UInt64.ofNat (crossedQty side limit (b.levelList (opposite side))) := by
  unfold marketableQty bestLevel levelList
  have hlen : (b.occupied (opposite side)).length ≤ b.span := by
    refine Nat.le_trans (List.length_filter_le _ _) ?_
    cases opposite side <;> simp [order]
  have hocc := occupied_eq h (opposite side)
  cases hi : b.bestIndex (opposite side) with
  | none =>
    rw [hi] at hocc
    rw [hocc]
    cases b.span <;> simp [marketableLoop, crossedQty]
  | some i =>
    rw [hi] at hocc
    simp only at hocc
    rw [hocc] at hlen ⊢
    rw [Option.map_some, marketableLoop_eq h side limit hr _ i 0 (bestIndex_bit h hi) hlen]
    simp

theorem snapshotLoop_eq (h : Ok b)
    (hr : ∀ i, b.testBit s i = true → (b.levels s i).price ≠ kNoPrice ∨ b.after s i = []) :
    ∀ n i, b.testBit s i = true → b.snapshotLoop s n (some (b.levels s i)) =
      (((i :: (b.after s i).filter (b.testBit s)).map (b.levels s)).take n).map depthEntry := by
  intro n
  induction n with
  | zero => intro i _; rfl
  | succ n ih =>
    intro i ht
    unfold snapshotLoop
    rw [next_eq h ht (hr i ht), List.map_cons, List.take_succ_cons, List.map_cons]
    cases hf : (b.after s i).find? (b.testBit s) with
    | none =>
      have : (b.after s i).filter (b.testBit s) = [] := by
        rw [List.filter_eq_nil_iff]; exact List.find?_eq_none.mp hf
      rw [this]
      cases n <;> simp [snapshotLoop]
    | some j =>
      rw [find_filter (after_rest b s) (after_rest b s i) hf, Option.map_some, ih j (List.find?_some hf)]

theorem snapshot_eq (h : Ok b)
    (hr : ∀ i, b.testBit s i = true → (b.levels s i).price ≠ kNoPrice ∨ b.after s i = []) (n : Nat) :
    b.snapshot s n = ((b.levelList s).take n).map depthEntry := by
  unfold snapshot bestLevel levelList
  rw [occupied_eq h]
  cases hi : b.bestIndex s with
  | none => cases n <;> simp [snapshotLoop]
  | some i => exact snapshotLoop_eq h hr n i (bestIndex_bit h hi)

/-! ## Occupying and vacating a level -/

theorem lookup_levels (h : Ok b) (hi : i < b.span) : lookup PriceLevel.price (b.minPrice + i) (b.levelList s) =
    if (b.levels s i).empty then none else some (b.levels s i) := by
  cases he : (b.levels s i).empty with
  | false =>
    have ht : b.testBit s i = true := (h.bit s i).mpr ⟨hi, he⟩
    rw [← h.occ_price ht]
    exact lookup_of_mem (ordered_levels h s) (List.mem_map_of_mem ((mem_occupied h).mpr ht))
  | true =>
    cases hl : lookup PriceLevel.price (b.minPrice + i) (b.levelList s) with
    | none => rfl
    | some l =>
      obtain ⟨hm, hp⟩ := lookup_some hl
      obtain ⟨j, hj, rfl⟩ := List.mem_map.mp hm
      have hj := (mem_occupied h).mp hj
      rw [h.occ_price hj] at hp
      have : j = i := (offset_inj _).mp hp
      subst this
      rw [((h.bit s j).mp hj).2] at he
      cases he

theorem lookup_outside (h : Ok b) {p : Price} (hp : b.slot p = none) :
    lookup PriceLevel.price p (b.levelList s) = none := by
  cases hl : lookup PriceLevel.price p (b.levelList s) with
  | none => rfl
  | some l =>
    obtain ⟨hm, hp'⟩ := lookup_some hl
    obtain ⟨j, hj, rfl⟩ := List.mem_map.mp hm
    have hj := (mem_occupied h).mp hj
    rw [h.occ_price hj] at hp'
    rw [(slot_eq_some h).mpr ⟨h.lt_span hj, hp'.symm⟩] at hp
    cases hp

/-- Two books over one band whose levels agree on a side list the same levels there. -/
theorem levelList_congr (h : Ok b) (h' : Ok b') (hmin : b'.minPrice = b.minPrice) (hspan : b'.span = b.span)
    {L : List PriceLevel} (hL : Ordered (better s) PriceLevel.price L)
    (hin : ∀ i < b.span, lookup PriceLevel.price (b.minPrice + i) L =
      if (b'.levels s i).empty then none else some (b'.levels s i))
    (hout : ∀ p, b.slot p = none → lookup PriceLevel.price p L = none) : b'.levelList s = L := by
  refine ext_lookup (ordered_levels h' s) hL fun p => ?_
  cases hp : b.slot p with
  | none =>
    rw [hout p hp]
    refine lookup_outside h' ?_
    cases hp' : b'.slot p with
    | none => rfl
    | some i =>
      obtain ⟨hi, e⟩ := (slot_eq_some h').mp hp'
      rw [(slot_eq_some h).mpr ⟨by rw [← hspan]; exact hi, by rw [← hmin]; exact e⟩] at hp
      cases hp
  | some i =>
    obtain ⟨hi, rfl⟩ := (slot_eq_some h).mp hp
    rw [hin i hi, ← hmin]
    exact lookup_levels h' (by rw [hspan]; exact hi)

theorem levelList_same (h : Ok b) (h' : Ok b') (hmin : b'.minPrice = b.minPrice) (hspan : b'.span = b.span)
    (hl : b'.levels s = b.levels s) : b'.levelList s = b.levelList s :=
  levelList_congr h h' hmin hspan (ordered_levels h s) (fun i hi => by rw [hl]; exact lookup_levels h hi)
    (fun _ hp => lookup_outside h hp)

variable {l : PriceLevel}

theorem occupy (b' : OrderBook) (h : Ok b) (hi : i < b.span) (he : l.empty = false) (hp : l.price = b.minPrice + i)
    (hmin : b'.minPrice = b.minPrice) (hmax : b'.maxPrice = b.maxPrice) (hspan : b'.span = b.span)
    (hlev : b'.levels = setAt b.levels s i l) (hco : Coherent b')
    (hbit : ∀ t j, b'.testBit t j = (decide (t = s ∧ j = i) || b.testBit t j)) :
    Ok b' ∧ b'.levelList s = put (better s) PriceLevel.price l (b.levelList s) ∧
      b'.levelList (opposite s) = b.levelList (opposite s) := by
  have h' : Ok b' := by
    refine ⟨by rw [hmin, hmax]; exact h.band, by rw [hmin, hmax]; exact h.width,
      by rw [hmin, hmax, hspan]; exact h.span, ?_, hco, ?_, ?_⟩
    · intro t j
      rw [hbit, hspan, hlev, setAt_apply, Bool.or_eq_true, h.bit, decide_eq_true_iff]
      split
      · rename_i e
        simp [e, he, hi]
      · rename_i e
        simp [e]
    · intro t j hj
      rw [hlev, setAt_apply] at hj ⊢
      rw [hmin]
      split
      · rename_i e; rw [hp, e.2]
      · rename_i e; rw [if_neg e] at hj; exact h.price t j hj
    · intro t j hj
      rw [hlev, setAt_apply] at hj ⊢
      split
      · rename_i e; rw [if_pos e, he] at hj; cases hj
      · rename_i e; rw [if_neg e] at hj; exact h.vacant t j hj
  refine ⟨h', ?_, levelList_same h h' hmin hspan (by rw [hlev]; funext j; simp [setAt])⟩
  refine levelList_congr h h' hmin hspan (sorted_put (ordered_levels h s) l) ?_ ?_
  · intro j hj
    rw [lookup_put (ordered_levels h s), hp, hlev]
    by_cases e : j = i
    · subst e; simp [he]
    · have hsame : ∀ v, setAt b.levels s i v s j = b.levels s j := fun v => if_neg fun e' => e e'.2
      rw [if_neg (fun e' => e ((offset_inj _).mp e')), hsame]
      exact lookup_levels h hj
  · intro p hp'
    rw [lookup_put (ordered_levels h s), if_neg]
    · exact lookup_outside h hp'
    · intro e
      rw [(slot_eq_some h).mpr ⟨hi, e.trans hp⟩] at hp'
      cases hp'

theorem vacate (b' : OrderBook) (h : Ok b) (hi : i < b.span) (hmin : b'.minPrice = b.minPrice) (hmax : b'.maxPrice = b.maxPrice)
    (hspan : b'.span = b.span) (hlev : b'.levels = setAt b.levels s i {}) (hco : Coherent b')
    (hbit : ∀ t j, b'.testBit t j = (decide (¬ (t = s ∧ j = i)) && b.testBit t j)) :
    Ok b' ∧ b'.levelList s = del PriceLevel.price (b.minPrice + i) (b.levelList s) ∧
      b'.levelList (opposite s) = b.levelList (opposite s) := by
  have hnew : ({} : PriceLevel).empty = true := rfl
  have h' : Ok b' := by
    refine ⟨by rw [hmin, hmax]; exact h.band, by rw [hmin, hmax]; exact h.width,
      by rw [hmin, hmax, hspan]; exact h.span, ?_, hco, ?_, ?_⟩
    · intro t j
      rw [hbit, hspan, hlev, setAt_apply, Bool.and_eq_true, h.bit, decide_eq_true_iff]
      split
      · rename_i e
        simp [e, hnew]
      · rename_i e
        simp [e]
    · intro t j hj
      rw [hlev, setAt_apply] at hj ⊢
      rw [hmin]
      split
      · rename_i e; rw [if_pos e, hnew] at hj; cases hj
      · rename_i e; rw [if_neg e] at hj; exact h.price t j hj
    · intro t j hj
      rw [hlev, setAt_apply] at hj ⊢
      split
      · rfl
      · rename_i e; rw [if_neg e] at hj; exact h.vacant t j hj
  refine ⟨h', ?_, levelList_same h h' hmin hspan (by rw [hlev]; funext j; simp [setAt])⟩
  refine levelList_congr h h' hmin hspan (sorted_del (ordered_levels h s) _) ?_ ?_
  · intro j hj
    rw [lookup_del, hlev]
    by_cases e : j = i
    · subst e; simp [hnew]
    · have hsame : ∀ v, setAt b.levels s i v s j = b.levels s j := fun v => if_neg fun e' => e e'.2
      rw [if_neg (fun e' => e ((offset_inj _).mp e')), hsame]
      exact lookup_levels h hj
  · intro p hp'
    rw [lookup_del]
    split
    · rfl
    · exact lookup_outside h hp'

/-! ## The operations -/

theorem make_ok {lo hi : Price} (h : make lo hi = some b) :
    Ok b ∧ b.minPrice = lo ∧ b.maxPrice = hi ∧ (∀ s, b.levelList s = []) ∧ ∀ s, b.orderCounts s = 0 := by
  unfold make at h
  split at h
  · rename_i hb
    cases h
    have hbit : ∀ s i, testBit ⟨lo, hi, (hi - lo).toNat + 1, fun _ _ => {}, fun _ _ => 0, fun _ _ => 0, fun _ => 0⟩ s i =
        false := by
      intro s i; simp [testBit_eq]
    refine ⟨⟨hb.1, hb.2, rfl, ?_, ?_, ?_, ?_⟩, rfl, rfl, ?_, fun _ => rfl⟩
    · intro s i; rw [hbit]; simp [PriceLevel.empty]
    · intro s w; simp
    · intro s i hi; cases hi
    · intro s i _; rfl
    · intro s
      unfold levelList occupied
      rw [List.filter_eq_nil_iff.mpr (fun i _ => by rw [hbit]; decide)]
      rfl
  · cases h

theorem add_spec {m m' : Mem} {o : Ptr} (h : Ok b) (e : b.add m o = some (b', m')) :
    let l := (lookup PriceLevel.price (m o).price (b.levelList (m o).side)).getD { price := (m o).price }
    Ok b' ∧ b'.minPrice = b.minPrice ∧ b'.maxPrice = b.maxPrice ∧ m' = (l.pushBack m o).2 ∧
      b'.levelList (m o).side =
        put (better (m o).side) PriceLevel.price (l.pushBack m o).1 (b.levelList (m o).side) ∧
      b'.levelList (opposite (m o).side) = b.levelList (opposite (m o).side) ∧
      b'.orderCounts = setSide b.orderCounts (m o).side (b.orderCounts (m o).side + 1) := by
  intro l
  unfold add at e
  cases hs : b.slot (m o).price with
  | none => rw [hs] at e; cases e
  | some i =>
    obtain ⟨hi, hp⟩ := (slot_eq_some h).mp hs
    have hl : l = if (b.levels (m o).side i).empty then { price := (m o).price } else b.levels (m o).side i := by
      show (lookup _ _ _).getD _ = _
      rw [hp, lookup_levels h hi]
      split <;> rfl
    rw [hs] at e
    simp only [Option.bind_eq_bind, Option.bind_some] at e
    cases he : (b.levels (m o).side i).empty with
    | true =>
      rw [he, if_pos rfl] at hl
      rw [he, if_pos rfl, h.vacant _ _ he, ← hl] at e
      simp only [if_true, Option.some.injEq, Prod.mk.injEq] at e
      obtain ⟨hb', hm'⟩ := e
      have hlp : (l.pushBack m o).1.price = b.minPrice + i := by
        rw [PriceLevel.pushBack_price, hl]; exact hp
      obtain ⟨h1, h2, h3⟩ := occupy b' h hi (pushBack_nonempty (m := m) (o := o) (Or.inr (by rw [hl]))) hlp
        (by rw [← hb']; rfl) (by rw [← hb']; rfl) (by rw [← hb']; rfl) (by rw [← hb']; rfl)
        (by rw [← hb']; exact coherent_setBit h.coherent (m o).side i)
        (fun t j => by rw [← hb']; exact testBit_setBit b (m o).side t i j)
      exact ⟨h1, by rw [← hb']; rfl, by rw [← hb']; rfl, hm'.symm, h2, h3, by rw [← hb']; rfl⟩
    | false =>
      rw [he] at hl
      rw [he] at e
      simp only [Bool.false_eq_true, if_false] at hl e
      rw [← hl] at e
      simp only [Option.some.injEq, Prod.mk.injEq] at e
      obtain ⟨hb', hm'⟩ := e
      have hlp : (l.pushBack m o).1.price = b.minPrice + i := by
        rw [PriceLevel.pushBack_price, hl]; exact h.price _ _ he
      have ht := (h.bit _ _).mpr ⟨hi, he⟩
      obtain ⟨h1, h2, h3⟩ := occupy b' h hi (pushBack_nonempty (m := m) (o := o) (Or.inl (by rw [hl]; exact he))) hlp
        (by rw [← hb']) (by rw [← hb']) (by rw [← hb']) (by rw [← hb'])
        (by rw [← hb']; exact h.coherent) (fun t j => by rw [← hb']; exact bit_kept ht t j)
      exact ⟨h1, by rw [← hb'], by rw [← hb'], hm'.symm, h2, h3, by rw [← hb']⟩

/-- The slot of a listed level. -/
theorem slot_of_lookup (h : Ok b) {p : Price} (hl : lookup PriceLevel.price p (b.levelList s) = some l) :
    ∃ i, b.slot p = some i ∧ i < b.span ∧ p = b.minPrice + i ∧ b.levels s i = l ∧ l.empty = false := by
  cases hs : b.slot p with
  | none => rw [lookup_outside h hs] at hl; cases hl
  | some i =>
    obtain ⟨hi, rfl⟩ := (slot_eq_some h).mp hs
    rw [lookup_levels h hi] at hl
    cases he : (b.levels s i).empty with
    | true => rw [he, if_pos rfl] at hl; cases hl
    | false =>
      rw [he] at hl
      simp only [Bool.false_eq_true, if_false, Option.some.injEq] at hl
      exact ⟨i, rfl, hi, rfl, hl, hl ▸ he⟩

theorem remove_spec {m : Mem} {o : Ptr} (h : Ok b)
    (hl : lookup PriceLevel.price (m o).price (b.levelList (m o).side) = some l)
    (hnew : (l.unlink m o).1.empty = true → (l.unlink m o).1 = { price := (m o).price }) :
    ∃ b', b.remove m o = some (b', (l.unlink m o).2) ∧
      Ok b' ∧ b'.minPrice = b.minPrice ∧ b'.maxPrice = b.maxPrice ∧
      b'.levelList (m o).side = (if (l.unlink m o).1.empty
        then del PriceLevel.price (m o).price (b.levelList (m o).side)
        else put (better (m o).side) PriceLevel.price (l.unlink m o).1 (b.levelList (m o).side)) ∧
      b'.levelList (opposite (m o).side) = b.levelList (opposite (m o).side) ∧
      b'.orderCounts = setSide b.orderCounts (m o).side (b.orderCounts (m o).side - 1) := by
  obtain ⟨i, hs, hi, hp, hlev, hne⟩ := slot_of_lookup h hl
  have ht := (h.bit (m o).side i).mpr ⟨hi, hlev ▸ hne⟩
  unfold remove
  rw [hs]
  simp only [Option.bind_eq_bind, Option.bind_some, hlev]
  cases he : (l.unlink m o).1.empty with
  | true =>
    rw [if_pos rfl, hnew he]
    let c : OrderBook := { b with
      orderCounts := setSide b.orderCounts (m o).side (b.orderCounts (m o).side - 1)
      levels := setAt b.levels (m o).side i { price := kNoPrice } }
    obtain ⟨h1, h2, h3⟩ := vacate (c.clearBit (m o).side i) h hi (clearBit_minPrice c _ i) (clearBit_maxPrice c _ i)
      (clearBit_span c _ i) (clearBit_levels c _ i) (coherent_clearBit (b := c) h.coherent _ i)
      (fun t j => testBit_clearBit c _ t i j)
    refine ⟨c.clearBit (m o).side i, rfl, h1, clearBit_minPrice c _ i, clearBit_maxPrice c _ i, ?_, h3,
      clearBit_orderCounts c _ i⟩
    rw [h2, hp]
    simp
  | false =>
    rw [if_neg (by decide), if_neg (by decide)]
    have hlp : (l.unlink m o).1.price = b.minPrice + i := by
      rw [PriceLevel.unlink_price, ← hlev]; exact h.occ_price ht
    let c : OrderBook := { b with
      orderCounts := setSide b.orderCounts (m o).side (b.orderCounts (m o).side - 1)
      levels := setAt b.levels (m o).side i (l.unlink m o).1 }
    obtain ⟨h1, h2, h3⟩ := occupy c h hi he hlp rfl rfl rfl rfl h.coherent (bit_kept ht)
    exact ⟨c, rfl, h1, rfl, rfl, h2, h3, rfl⟩

theorem reduce_spec {m : Mem} {o : Ptr} (traded : Quantity) (h : Ok b)
    (hl : lookup PriceLevel.price (m o).price (b.levelList (m o).side) = some l) :
    ∃ b', b.reduceInPlace m o traded = some (b', takeFrom m o traded) ∧
      Ok b' ∧ b'.minPrice = b.minPrice ∧ b'.maxPrice = b.maxPrice ∧
      b'.levelList (m o).side =
        put (better (m o).side) PriceLevel.price { l with totalQty := l.totalQty - traded } (b.levelList (m o).side) ∧
      b'.levelList (opposite (m o).side) = b.levelList (opposite (m o).side) ∧ b'.orderCounts = b.orderCounts := by
  obtain ⟨i, hs, hi, hp, hlev, hne⟩ := slot_of_lookup h hl
  have ht := (h.bit (m o).side i).mpr ⟨hi, hlev ▸ hne⟩
  have hlp : l.price = b.minPrice + i := by rw [← hlev]; exact h.occ_price ht
  let c : OrderBook := { b with levels := setAt b.levels (m o).side i { l with totalQty := l.totalQty - traded } }
  obtain ⟨h1, h2, h3⟩ := occupy c h hi (l := { l with totalQty := l.totalQty - traded }) hne hlp rfl rfl rfl rfl
    h.coherent (bit_kept ht)
  refine ⟨c, ?_, h1, rfl, rfl, h2, h3, rfl⟩
  unfold reduceInPlace
  rw [hs]
  simp only [Option.bind_eq_bind, Option.bind_some, hlev]
  rfl

end OrderBook

instance : LawfulBook OrderBook where
  Ok := OrderBook.Ok
  minPrice := OrderBook.minPrice
  maxPrice := OrderBook.maxPrice
  levels := OrderBook.levelList
  make_ok := OrderBook.make_ok
  inBand_eq _ _ := rfl
  ordered := OrderBook.ordered_levels
  bestLevel_eq := OrderBook.bestLevel_eq
  bestPrice_eq := OrderBook.bestPrice_eq
  marketableQty_eq h side limit hr := OrderBook.marketableQty_eq h side limit (OrderBook.real_of h hr)
  snapshot_eq h _ n hr := OrderBook.snapshot_eq h (fun i ht => Or.inl (OrderBook.real_of h hr i ht)) n
  add_none {b m o} h e := by
    have e : b.add m o = none := e
    unfold OrderBook.add at e
    cases hs : b.slot (m o).price with
    | none => exact OrderBook.slot_none h hs
    | some i => rw [hs] at e; cases e
  add_some {b b' m m' o} h e := by
    obtain ⟨h1, h2, h3, h4, h5, h6, h7⟩ := OrderBook.add_spec h e
    refine ⟨h1, h2, h3, h4, h5, h6, ?_, ?_⟩
    · show b'.orderCounts _ = b.orderCounts _ + 1
      rw [h7, setSide_same]
    · show b'.orderCounts _ = b.orderCounts _
      rw [h7, setSide_opposite]
  remove_some {b m o l} h hl hnew := by
    obtain ⟨b', h0, h1, h2, h3, h4, h5, h6⟩ := OrderBook.remove_spec h hl hnew
    refine ⟨b', h0, h1, h2, h3, h4, h5, ?_, ?_⟩
    · show b'.orderCounts _ = b.orderCounts _ - 1
      rw [h6, setSide_same]
    · show b'.orderCounts _ = b.orderCounts _
      rw [h6, setSide_opposite]
  reduce_some {b m o l} traded h hl := by
    obtain ⟨b', h0, h1, h2, h3, h4, h5, h6⟩ := OrderBook.reduce_spec traded h hl
    exact ⟨b', h0, h1, h2, h3, h4, h5, fun t => congrFun h6 t⟩

end Lob
