/-
  Lob.Laws.Occupancy — the bitset book is the set of its occupied prices.

  After any legal calls on a book of any band (`book_represents`): the bits are the
  non-empty queues, each level caches the aggregates of its queue, and the four scans read
  the occupied prices off, best first.

  `kNoPrice` doubles as "no level": a walk that stands on a level there goes no further.
  Only a sell level can have a worse one behind it, so the sell side of a book with an
  order at `kNoPrice` is walked one level deep (`Represents.sentinel`, `sentinel_hides_levels`).
-/

import Lob.Book.OrderBookRuns
import Mathlib.Order.Bounds.Basic

namespace Lob.OrderBook

/-! ## What a book stands for -/

/-- The occupied prices of a side. -/
def Use.prices (u : Use) (s : Side) : Set Price := {p | ∃ o ∈ u.members, (u.mem o).side = s ∧ (u.mem o).price = p}

/-- The depth entry of a price, read off the members. -/
def Use.entry (u : Use) (s : Side) (p : Price) : DepthEntry :=
  ⟨p, UInt64.ofNat (openQty u.mem (u.queue s p)), UInt32.ofNat (u.queue s p).length⟩

/-- The next occupied price beyond `p`, with its level. -/
def Use.Nearest (u : Use) (s : Side) (p : Price) : Option PriceLevel → Prop
  | none => ∀ q ∈ u.prices s, ¬ better s p q
  | some l => l.price ∈ u.prices s ∧ better s p l.price ∧ (∀ q ∈ u.prices s, better s p q → ¬ better s q l.price) ∧
      Queue u.mem l (u.queue s l.price)

/-- A walk of side `s` ends early only on a sell level at `kNoPrice`. -/
def Use.Walkable (u : Use) (s : Side) : Prop := s = .buy ∨ kNoPrice ∉ u.prices s

structure Represents (u : Use) : Prop where
  bit : ∀ s i, u.book.testBit s i = true ↔ u.queue s (u.book.minPrice + i) ≠ []
  summary : ∀ s w, (u.book.summary s (w / 64)).getLsbD (w % 64) = true ↔ u.book.words s w ≠ 0
  price : ∀ s (i : Nat), u.queue s (u.book.minPrice + i) ≠ [] → (u.book.levels s i).price = u.book.minPrice + i
  noBest : ∀ s, u.prices s = ∅ → u.book.bestPrice s = kNoPrice
  bestBuy : (u.prices .buy).Nonempty → IsGreatest (u.prices .buy) (u.book.bestPrice .buy)
  bestSell : (u.prices .sell).Nonempty → IsLeast (u.prices .sell) (u.book.bestPrice .sell)
  next : ∀ s p, p ∈ u.prices s → (s = .buy ∨ p ≠ kNoPrice) → u.Nearest s p (u.book.nextLevelTowardMid s p)
  snapshot : ∀ s, ∃ L : List Price, L.Pairwise (better s) ∧ (∀ p, p ∈ L ↔ p ∈ u.prices s) ∧
    (u.Walkable s → ∀ k, u.book.snapshot s k = (L.take k).map (u.entry s))
  sentinel : kNoPrice ∈ u.prices .sell → u.book.nextLevelTowardMid .sell kNoPrice = none ∧
    ∀ k, u.book.snapshot .sell k = [u.entry .sell kNoPrice].take k

variable {lo hi : Price} {u : Use} {s : Side}

theorem Use.mem_prices {p : Price} : p ∈ u.prices s ↔ u.queue s p ≠ [] := by
  constructor
  · intro h
    obtain ⟨o, ho, hs, hp⟩ := h
    exact List.ne_nil_of_mem (Use.mem_queue.mpr ⟨ho, hs, hp⟩)
  · intro h
    obtain ⟨o, ho⟩ := List.exists_mem_of_ne_nil _ h
    exact ⟨o, Use.mem_queue.mp ho⟩

/-! ## The occupied indices -/

theorem Inv.bit (h : Inv lo hi u) (s : Side) (i : Nat) :
    u.book.testBit s i = true ↔ lo + (i : Int) ∈ u.prices s := by
  rw [h.ok.bit, Use.mem_prices]
  constructor
  · intro hb
    rw [Ne, ← (h.queue s i hb.1).empty_iff, hb.2]
    exact Bool.false_ne_true
  · intro hq
    have hi' : i < u.book.span := by
      obtain ⟨o, ho⟩ := List.exists_mem_of_ne_nil _ hq
      obtain ⟨ho, _, hp⟩ := Use.mem_queue.mp ho
      obtain ⟨j, hj, e⟩ := h.index_of_band (h.band o ho)
      rw [← (offset_inj lo).mp (e.symm.trans hp)]
      exact hj
    refine ⟨hi', ?_⟩
    rw [← Bool.not_eq_true, (h.queue s i hi').empty_iff]
    exact hq

theorem Inv.index_of_price (h : Inv lo hi u) {p : Price} (hp : p ∈ u.prices s) :
    ∃ i : Nat, p = lo + i ∧ u.book.testBit s i = true := by
  obtain ⟨o, ho, hs, e⟩ := hp
  obtain ⟨i, _, e'⟩ := h.index_of_band (h.band o ho)
  have e' := e.symm.trans e'
  exact ⟨i, e', (h.bit s i).mpr ⟨o, ho, hs, e.trans e'⟩⟩

theorem Inv.level_price (h : Inv lo hi u) {i : Nat} (ht : u.book.testBit s i = true) :
    (u.book.levels s i).price = lo + (i : Int) := by
  rw [← h.low]
  exact h.ok.occ_price ht

/-- The occupied prices, best first. -/
def Use.ladder (u : Use) (s : Side) : List Price := (u.book.occupied s).map fun i : Nat => u.book.minPrice + (i : Int)

theorem Inv.mem_ladder (h : Inv lo hi u) {p : Price} : p ∈ u.ladder s ↔ p ∈ u.prices s := by
  unfold Use.ladder
  rw [List.mem_map, h.low]
  constructor
  · intro hp
    obtain ⟨i, hi, e⟩ := hp
    rw [← e]
    exact (h.bit s i).mp ((mem_occupied h.ok).mp hi)
  · intro hp
    obtain ⟨i, e, ht⟩ := h.index_of_price hp
    exact ⟨i, (mem_occupied h.ok).mpr ht, e.symm⟩

theorem ladder_pairwise (u : Use) (s : Side) : (u.ladder s).Pairwise (better s) :=
  List.pairwise_map.mpr ((order_pairwise u.book s).sublist List.filter_sublist)

theorem Inv.level_entry (h : Inv lo hi u) {i : Nat} (ht : u.book.testBit s i = true) :
    depthEntry (u.book.levels s i) = u.entry s (lo + i) := by
  have hq := h.queue s i (h.ok.lt_span ht)
  unfold depthEntry Use.entry
  rw [h.level_price ht, hq.total, hq.count]

theorem Inv.entries (h : Inv lo hi u) (s : Side) : (u.book.levelList s).map depthEntry = (u.ladder s).map (u.entry s) := by
  unfold levelList Use.ladder
  rw [List.map_map, List.map_map]
  refine List.map_congr_left fun i hi => ?_
  show depthEntry (u.book.levels s i) = u.entry s (u.book.minPrice + i)
  rw [h.low, h.level_entry ((mem_occupied h.ok).mp hi)]

/-! ## The best price -/

theorem Inv.best (h : Inv lo hi u) (s : Side) : u.book.bestPrice s = (u.ladder s).head?.getD kNoPrice := by
  rw [bestPrice_eq h.ok, topPrice]
  unfold levelList Use.ladder
  rw [List.head?_map, List.head?_map, Option.map_map]
  cases ho : (u.book.occupied s).head? with
  | none => rfl
  | some i =>
    have ht := (mem_occupied h.ok).mp (List.mem_of_head? ho)
    show (u.book.levels s i).price = u.book.minPrice + i
    exact h.ok.occ_price ht

/-- The best price is occupied, and no occupied price is better. -/
theorem Inv.best_spec (h : Inv lo hi u) (hne : (u.prices s).Nonempty) :
    u.book.bestPrice s ∈ u.prices s ∧ ∀ p ∈ u.prices s, ¬ better s p (u.book.bestPrice s) := by
  obtain ⟨p, hp⟩ := hne
  rw [h.best]
  have hmem : ∀ q, q ∈ u.ladder s ↔ q ∈ u.prices s := fun q => h.mem_ladder
  have hpw := ladder_pairwise u s
  cases hl : u.ladder s with
  | nil =>
    rw [← hmem, hl] at hp
    cases hp
  | cons q L =>
    rw [hl] at hmem hpw
    refine ⟨(hmem q).mp (List.mem_cons_self ..), fun r hr => ?_⟩
    show ¬ better s r q
    rcases List.mem_cons.mp ((hmem r).mpr hr) with e | hr
    · rw [e]
      exact irrefl q
    · exact asymm (List.rel_of_pairwise_cons hpw hr)

/-! ## The walk -/

theorem mem_after {b : OrderBook} {i j : Nat} (hj : j < b.span) (hij : better s (lo + (i : Int)) (lo + (j : Int))) :
    j ∈ b.after s i := by
  cases s
  · have hij : lo + (j : Int) < lo + (i : Int) := hij
    rw [after, List.mem_reverse, List.mem_range]
    unfold Price at *
    omega
  · have hij : lo + (i : Int) < lo + (j : Int) := hij
    rw [after, List.mem_range'_1]
    unfold Price at *
    omega

theorem after_better {b : OrderBook} {i j : Nat} (hj : j ∈ b.after s i) : better s (lo + (i : Int)) (lo + (j : Int)) := by
  cases s
  · rw [after, List.mem_reverse, List.mem_range] at hj
    exact Int.add_lt_add_left (Int.ofNat_lt.mpr hj) _
  · rw [after, List.mem_range'_1] at hj
    exact Int.add_lt_add_left (Int.ofNat_lt.mpr hj.1) _

theorem after_pairwise (b : OrderBook) (s : Side) (i : Nat) :
    (b.after s i).Pairwise fun (j k : Nat) => better s (lo + (j : Int)) (lo + (k : Int)) := by
  cases s
  · rw [after, List.pairwise_reverse]
    refine List.pairwise_lt_range.imp fun {j k} hjk => ?_
    exact Int.add_lt_add_left (Int.ofNat_lt.mpr hjk) _
  · refine (List.pairwise_lt_range' ..).imp fun {j k} hjk => ?_
    exact Int.add_lt_add_left (Int.ofNat_lt.mpr hjk) _

theorem Inv.next_spec (h : Inv lo hi u) {i : Nat} (ht : u.book.testBit s i = true)
    (hp : (u.book.levels s i).price ≠ kNoPrice ∨ u.book.after s i = []) :
    u.Nearest s (lo + i) (u.book.nextLevelTowardMid s (lo + i)) := by
  rw [← h.level_price ht, next_eq h.ok ht hp, h.level_price ht]
  cases hf : (u.book.after s i).find? (u.book.testBit s) with
  | none =>
    intro q hq hb
    obtain ⟨j, e, htj⟩ := h.index_of_price hq
    rw [e] at hb
    exact List.find?_eq_none.mp hf j (mem_after (h.ok.lt_span htj) hb) htj
  | some j =>
    obtain ⟨htj, xs, ys, hl, hxs⟩ := List.find?_eq_some_iff_append.mp hf
    have hjp := h.level_price htj
    have hpw : (u.book.after s i).Pairwise fun (j k : Nat) => better s (lo + (j : Int)) (lo + (k : Int)) :=
      after_pairwise u.book s i
    rw [hl, List.pairwise_append] at hpw
    show (u.book.levels s j).price ∈ _ ∧ better s _ (u.book.levels s j).price ∧ _
    rw [hjp]
    refine ⟨(h.bit s j).mp htj, after_better (b := u.book) (hl ▸ by simp), fun q hq hb => ?_,
      h.queue s j (h.ok.lt_span htj)⟩
    obtain ⟨k, e, htk⟩ := h.index_of_price hq
    rw [e] at hb ⊢
    have hk := mem_after (h.ok.lt_span htk) hb
    rw [hl] at hk
    rcases List.mem_append.mp hk with hk | hk
    · exact absurd (hxs k hk) (by rw [htk]; decide)
    · rcases List.mem_cons.mp hk with e | hk
      · rw [e]
        exact irrefl _
      · exact asymm (List.rel_of_pairwise_cons hpw.2.1 hk)

/-- A buy level at the sentinel is the last of its side. -/
theorem Inv.walk (h : Inv lo hi u) (hlo : kNoPrice ≤ lo) {i : Nat} (ht : u.book.testBit s i = true)
    (hp : s = .buy ∨ lo + (i : Int) ≠ kNoPrice) :
    (u.book.levels s i).price ≠ kNoPrice ∨ u.book.after s i = [] := by
  rw [h.level_price ht]
  rcases hp with rfl | hp
  · by_cases e : lo + (i : Int) = kNoPrice
    · right
      have hi : i = 0 := by
        unfold Price at *
        omega
      rw [hi]
      rfl
    · exact Or.inl e
  · exact Or.inl hp

/-- A sell level at the sentinel is the best of its side, and hides the others. -/
theorem Inv.sentinel (h : Inv lo hi u) (hlo : kNoPrice ≤ lo) (hs : kNoPrice ∈ u.prices .sell) (k : Nat) :
    u.book.snapshot .sell k = [u.entry .sell kNoPrice].take k := by
  obtain ⟨i, e, ht⟩ := h.index_of_price hs
  obtain ⟨_, hbest⟩ := h.best_spec ⟨kNoPrice, hs⟩
  have htop : u.book.bestLevel .sell = some (u.book.levels .sell i) := by
    have hi : i = 0 := by
      unfold Price at *
      omega
    have hl : u.book.bestIndex .sell = some i := by
      rw [bestIndex_eq h.ok]
      refine List.find?_eq_some_iff_append.mpr ⟨ht, [], (List.range' 1 (u.book.span - 1)), ?_, fun a ha => by cases ha⟩
      obtain ⟨n, hn⟩ : ∃ n, u.book.span = n + 1 := ⟨u.book.span - 1, by have := h.ok.span; omega⟩
      rw [hi, order, hn, List.range_eq_range', List.range'_succ]
      rfl
    rw [bestLevel, hl, Option.map_some]
  unfold snapshot
  rw [htop]
  cases k with
  | zero => rfl
  | succ k =>
    rw [snapshotLoop, h.level_entry ht, h.level_price ht, ← e, nextLevelTowardMid, if_pos rfl, List.take_succ_cons, List.take_nil]
    cases k <;> rfl

/-! ## The book and its members -/

theorem Inv.represents (h : Inv lo hi u) (hlo : kNoPrice ≤ lo) : Represents u where
  bit s i := by rw [h.bit, Use.mem_prices, h.low]
  summary s w := h.ok.coherent s w
  price s i hq := by
    rw [h.low] at hq ⊢
    exact h.level_price ((h.bit s i).mpr (Use.mem_prices.mpr hq))
  noBest s hs := by
    rw [h.best, List.head?_eq_none_iff.mpr]
    · rfl
    · refine List.eq_nil_iff_forall_not_mem.mpr fun p hp => ?_
      rw [h.mem_ladder, hs] at hp
      exact hp
  bestBuy hne := by
    obtain ⟨hm, hb⟩ := h.best_spec hne
    exact ⟨hm, fun p hp => not_lt.mp (hb p hp)⟩
  bestSell hne := by
    obtain ⟨hm, hb⟩ := h.best_spec hne
    exact ⟨hm, fun p hp => not_lt.mp (hb p hp)⟩
  next s p hp hw := by
    obtain ⟨i, e, ht⟩ := h.index_of_price hp
    rw [e] at hw ⊢
    exact h.next_spec ht (h.walk hlo ht hw)
  snapshot s := by
    refine ⟨u.ladder s, ladder_pairwise u s, fun p => h.mem_ladder, fun hw k => ?_⟩
    have hr : ∀ i, u.book.testBit s i = true → (u.book.levels s i).price ≠ kNoPrice ∨ u.book.after s i = [] := by
      intro i ht
      refine h.walk hlo ht ?_
      rcases hw with hw | hw
      · exact Or.inl hw
      · exact Or.inr fun e => hw (e ▸ (h.bit s i).mp ht)
    rw [snapshot_eq h.ok hr, List.map_take, List.map_take, h.entries]
  sentinel hs := ⟨if_pos rfl, h.sentinel hlo hs⟩

/-- After any legal calls on a book of any band of prices whose width fits a signed 64-bit
    integer, the book is the set of its occupied prices; and every legal call has a result. -/
theorem book_represents (hlo : kNoPrice ≤ lo) (hband : lo ≤ hi) (hwidth : hi - lo ≤ kMaxPrice) :
    ∃ b, make lo hi = some b ∧ ∀ m u, Reaches ⟨b, m, []⟩ u →
      Represents u ∧ ∀ c, u.Legal c → ∃ u', u.call c = some u' := by
  have hmake : make lo hi = some _ := if_pos ⟨hband, hwidth⟩
  refine ⟨_, hmake, fun m u hr => ?_⟩
  have h := hr.inv (make_inv hmake m)
  refine ⟨h.represents hlo, fun c hc => ?_⟩
  obtain ⟨u', e, _⟩ := h.call hc
  exact ⟨u', e⟩

theorem book_represents_wide : ∃ b, make (-70) 5000 = some b ∧ ∀ m u, Reaches ⟨b, m, []⟩ u →
    Represents u ∧ ∀ c, u.Legal c → ∃ u', u.call c = some u' :=
  book_represents (by decide) (by decide) (by decide)

/-- Two sell orders, the better one at the sentinel: the walk does not reach the other. -/
theorem sentinel_hides_levels : ∃ b u, make kNoPrice (kNoPrice + 1) = some b ∧ Reaches ⟨b, fun _ => {}, []⟩ u ∧
    kNoPrice ∈ u.prices .sell ∧ kNoPrice + 1 ∈ u.prices .sell ∧
    ¬ u.Nearest .sell kNoPrice (u.book.nextLevelTowardMid .sell kNoPrice) ∧ (u.book.snapshot .sell 2).length = 1 := by
  have key : (do
      let b ← make kNoPrice (kNoPrice + 1)
      let v ← Use.call ⟨b, fun _ => {}, []⟩ (.add 0 { price := kNoPrice, side := .sell })
      let u ← v.call (.add 1 { price := kNoPrice + 1, side := .sell })
      some (decide (b.inBand kNoPrice = true ∧ v.book.inBand (kNoPrice + 1) = true ∧ v.members = [0] ∧ u.members = [0, 1] ∧
        ((u.mem 0).side = .sell ∧ (u.mem 0).price = kNoPrice) ∧ ((u.mem 1).side = .sell ∧ (u.mem 1).price = kNoPrice + 1) ∧
        (u.book.nextLevelTowardMid .sell kNoPrice).isNone = true ∧ (u.book.snapshot .sell 2).length = 1))) =
      some true := by decide +kernel
  obtain ⟨b, hb, key⟩ := Option.bind_eq_some_iff.mp key
  obtain ⟨v, hv, key⟩ := Option.bind_eq_some_iff.mp key
  obtain ⟨u, hu, key⟩ := Option.bind_eq_some_iff.mp key
  simp only [Option.some.injEq, decide_eq_true_eq, Option.isNone_iff_eq_none] at key
  obtain ⟨hin, hin', hm, hm', hat0, hat1, hnext, hsnap⟩ := key
  have h1 : kNoPrice + 1 ∈ u.prices .sell := ⟨1, by rw [hm']; decide, hat1⟩
  refine ⟨b, u, hb, ?_, ⟨0, by rw [hm']; decide, hat0⟩, h1, ?_, hsnap⟩
  · have h0 : Reaches ⟨b, fun _ => {}, []⟩ v := .call (.add 0 { price := kNoPrice, side := .sell }) .start
      ⟨List.not_mem_nil, hin⟩ hv
    refine .call (.add 1 { price := kNoPrice + 1, side := .sell }) h0 ⟨?_, hin'⟩ hu
    rw [hm]
    decide
  · intro hn
    rw [hnext] at hn
    exact hn _ h1 (by decide)

end Lob.OrderBook
