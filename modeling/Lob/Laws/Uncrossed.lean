/-
  Lob.Laws.Uncrossed — the book is never crossed or locked.

  An order comes to rest only when `match` left the best opposite level out of its reach
  (`Landing.stop`); the other orders of that side are worse still. Everything else a
  command does takes orders off.
-/

import Lob.Book.OrderBookProofs
import Lob.Engine.Runs

namespace Lob

namespace Flat

variable {f : Flat} {n k : Nat}

/-- Nothing on a side is better than its first order. -/
theorem Inv.head_best (h : f.Inv n k) {s : Side} {x y : OrderInfo} {L : List OrderInfo} (hs : f.side s = x :: L)
    (hy : y ∈ f.side s) : ¬ better s y.price x.price := by
  rw [hs] at hy
  rcases List.mem_cons.mp hy with rfl | hy
  · exact irrefl _
  · have hsort := h.sorted s
    rw [hs] at hsort
    rcases (List.pairwise_cons.mp hsort).1 y hy with hb | ⟨e, _⟩
    · exact asymm hb
    · rw [e]; exact irrefl _

/-- Every bid is below every ask. -/
def Uncrossed (f : Flat) : Prop := ∀ b ∈ f.side .buy, ∀ s ∈ f.side .sell, b.price < s.price

theorem Uncrossed.shrink {f' : Flat} (h : f.Uncrossed) (hs : ∀ s, Shrinks (f'.side s) (f.side s)) : f'.Uncrossed := by
  intro b hb s hs'
  obtain ⟨b0, hb0, rb⟩ := (hs .buy).mem hb
  obtain ⟨s0, hs0, rs⟩ := (hs .sell).mem hs'
  rw [rb.price, rs.price]
  exact h b0 hb0 s0 hs0

/-- An order out of reach of the best opposite order is out of reach of all of them. -/
theorem Uncrossed.place {o : OrderInfo} (h : f.Uncrossed) (hi : f.Inv n k) (hp : o.price ≠ kNoPrice)
    (hstop : ∀ x, (f.side (opposite o.side)).head? = some x → reaches o x = false) : (f.place o).Uncrossed := by
  have hbeyond : ∀ y ∈ f.side (opposite o.side), crosses o.side o.price y.price = false := by
    intro y hy
    obtain ⟨x, L, hL⟩ := List.exists_cons_of_ne_nil (List.ne_nil_of_mem hy)
    have hx := hstop x (by rw [hL]; rfl)
    have hbest := hi.head_best hL hy
    unfold reaches at hx
    rw [Bool.or_eq_false_iff] at hx
    have hx := hx.2
    unfold crosses at hx ⊢
    rw [if_neg hp] at hx ⊢
    cases hs : o.side with
    | buy =>
      rw [hs] at hx hbest
      simp only [decide_eq_false_iff_not, ge_iff_le, Int.not_le] at hx ⊢
      exact Int.lt_of_lt_of_le hx (Int.not_lt.mp hbest)
    | sell =>
      rw [hs] at hx hbest
      simp only [decide_eq_false_iff_not, Int.not_le] at hx ⊢
      exact Int.lt_of_le_of_lt (Int.not_lt.mp hbest) hx
  intro b hb s hs
  rw [place_side] at hb hs
  cases ho : o.side with
  | buy =>
    rw [ho] at hb hs hbeyond
    rw [if_pos rfl] at hb
    rw [if_neg (by decide)] at hs
    rcases List.mem_cons.mp ((enqueue_perm o _).mem_iff.mp hb) with rfl | hb
    · have hc := hbeyond s hs
      unfold crosses at hc
      rw [if_neg hp] at hc
      simpa using hc
    · exact h b hb s hs
  | sell =>
    rw [ho] at hb hs hbeyond
    rw [if_neg (by decide)] at hb
    rw [if_pos rfl] at hs
    rcases List.mem_cons.mp ((enqueue_perm o _).mem_iff.mp hs) with rfl | hs
    · have hc := hbeyond b hb
      unfold crosses at hc
      rw [if_neg hp] at hc
      simpa using hc
    · exact h b hb s hs

end Flat

namespace FlatEngine

variable {a a' : FlatEngine} {fillable : Bool} {cmd : Command}

theorem uncrossed_moves (hi : a.Inv) (hp : a.Priced) (hm : Moves a fillable cmd a') (hc : ¬ cmd.Unpriced)
    (h : a.Uncrossed) : a'.Uncrossed := by
  cases hm with
  | shrinks n kept le sides => exact h.shrink sides
  | lands b c g o kept before sides landing result origin =>
    rw [result]
    have hside : o.side = c.side := by rw [landing.order]; rfl
    have hg : ∀ s, Shrinks (g.side s) (a.side s) := by
      rw [landing.book]
      exact fun s => (matching_shrinks b c s).trans (sides s)
    have hinv : g.Inv a.arrival a.cfg.maxOrders := hi.shrink hg (Nat.le_refl _)
    refine (h.shrink hg).place hinv ?_ (by rw [hside]; exact landing.stop)
    rw [landing.price_eq]
    rcases origin with ⟨rfl, ht, _, _⟩ | ⟨old, hold, _, _, rfl, _⟩
    · exact fun e => hc ⟨ht, landing.kind, e⟩
    · exact newPrice_ne cmd (hp old hold).1

end FlatEngine

variable {B : Type} [Book B] [LawfulBook B] {cfg : EngineConfig}

/-- In a run without unpriced orders the flat engine stays uncrossed. -/
theorem run_uncrossed {e : Engine B} {is : List Engine.Input} (h : Engine.run cfg is = some e)
    (his : ∀ i ∈ is, i.Obeys fun cmd => ¬ cmd.Unpriced) :
    ∃ a, Simulates e a ∧ a.cfg = cfg ∧ a.Priced ∧ a.Uncrossed := by
  refine run_induction h his (fun cap => ⟨FlatEngine.Priced.init cfg cap, fun b hb => by cases hb⟩) ?_
  intro a fillable i hi hp hok
  refine ⟨hp.1.step fillable hok, ?_⟩
  refine FlatEngine.step_keeps (Q := fun f _ => f.Uncrossed) (R := FlatEngine.Priced) ?_ (fun _ _ h => h) hi hp.1 fillable hok hp.2
  intro a a' f cmd hok hi hp hm hu
  exact FlatEngine.uncrossed_moves hi hp hm hok hu

/-- After every command of a run in which no Limit or PostOnly New carries `kNoPrice`, every
    resting bid is below every resting ask; with both sides occupied the spread is positive,
    and no wider than the band. -/
theorem never_crossed {e0 : Engine B} {is : List Engine.Input} (h0 : Engine.init cfg = some e0)
    (his : ∀ i ∈ is, i.Obeys fun cmd => ¬ cmd.Unpriced) : ∃ e : Engine B, Engine.run cfg is = some e ∧
      (∀ b ∈ e.queued .buy, ∀ s ∈ e.queued .sell, b.price < s.price) ∧
      (Book.empty e.book .buy = false → Book.empty e.book .sell = false →
        Book.bestBid e.book < Book.bestAsk e.book ∧ 0 < Book.spread e.book ∧
        Book.spread e.book ≤ cfg.maxPrice - cfg.minPrice) := by
  obtain ⟨e, he, _, _⟩ := run_flat h0 his
  obtain ⟨a, hs, hcfg, hp, hu⟩ := run_uncrossed he his
  refine ⟨e, he, ?_, fun hb ha => ?_⟩
  · rw [hs.refines.queued, hs.refines.queued]
    exact hu
  obtain ⟨b, hbm, hbt⟩ := hs.refines.best_order hb
  obtain ⟨s, hsm, hst⟩ := hs.refines.best_order ha
  have hlt : b.price < s.price := hu b hbm s hsm
  obtain ⟨hb0, hblo, _⟩ := hp b (Flat.mem_orders.mpr ⟨_, hbm⟩)
  obtain ⟨hs0, _, hshi⟩ := hp s (Flat.mem_orders.mpr ⟨_, hsm⟩)
  rw [hcfg] at hblo hshi
  have hspread : Book.spread e.book = s.price - b.price := by
    unfold Book.spread Book.bestBid Book.bestAsk
    simp only [hbt, hst]
    rw [if_neg (by simp [hb0, hs0])]
  rw [hspread]
  refine ⟨?_, Int.sub_pos_of_lt hlt, Int.sub_le_sub hshi hblo⟩
  unfold Book.bestBid Book.bestAsk
  rw [hbt, hst]
  exact hlt

theorem never_crossed_two_sided : ∃ e : Engine OrderBook,
    Engine.run { minPrice := 1, maxPrice := 500 } [.command 0 (.makeNew 1 7 .buy .limit 100 5 0),
      .command 0 (.makeNew 2 8 .sell .limit 101 5 0)] = some e ∧
      (∀ b ∈ e.queued .buy, ∀ s ∈ e.queued .sell, b.price < s.price) ∧
      (Book.empty e.book .buy = false → Book.empty e.book .sell = false →
        Book.bestBid e.book < Book.bestAsk e.book ∧ 0 < Book.spread e.book ∧ Book.spread e.book ≤ 500 - 1) :=
  @never_crossed OrderBook _ _ { minPrice := 1, maxPrice := 500 } _ _ rfl (by decide)

end Lob
