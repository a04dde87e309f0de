/-
  Lob.Base.Gaps — what a receiver of numbered items can tell of the ones that did not come.

  The receiver keeps the number that came last and adds up how far each next one lies
  beyond its successor (`gaps`). A number is missed when it lies past the first to come,
  before some other, and never comes (`missed`). Whatever the order and however often a
  number comes, no fewer are counted than are missed (`card_missed_le`); as many when they
  come in order (`card_missed`), and then none exactly when they are consecutive
  (`gaps_eq_zero_iff`).
-/

import Mathlib.Data.Finset.Card
import Mathlib.Order.Interval.Finset.Nat

namespace Lob.Base.Gaps

/-- Counted after `last`. -/
def gaps (last : Nat) : List Nat → Nat
  | [] => 0
  | n :: ns => (n - (last + 1)) + gaps n ns

/-- Past `last`, before one of `ns`, and not among them. -/
def missed (last : Nat) (ns : List Nat) : Finset Nat := (Finset.Ioo last (ns.foldr max 0)).filter (· ∉ ns)

variable {last n m : Nat} {ns : List Nat}

theorem lt_foldr_max : m < ns.foldr max 0 ↔ ∃ n ∈ ns, m < n := by
  induction ns with
  | nil => simp
  | cons n ns ih => simp only [List.foldr_cons, lt_max_iff, ih, List.mem_cons, exists_eq_or_imp]

theorem mem_missed : m ∈ missed last ns ↔ last < m ∧ (∃ n ∈ ns, m < n) ∧ m ∉ ns := by
  rw [missed, Finset.mem_filter, Finset.mem_Ioo, lt_foldr_max, and_assoc]

theorem missed_cons_subset : missed last (n :: ns) ⊆ Finset.Ioo last n ∪ missed n ns := by
  intro m hm
  obtain ⟨hlast, ⟨k, hk, hlt⟩, hnot⟩ := mem_missed.mp hm
  rw [List.mem_cons, not_or] at hnot
  rw [Finset.mem_union, Finset.mem_Ioo, mem_missed]
  by_cases hmn : m < n
  · exact Or.inl ⟨hlast, hmn⟩
  · have hgt : n < m := lt_of_le_of_ne (not_lt.mp hmn) (Ne.symm hnot.1)
    refine Or.inr ⟨hgt, ⟨k, ?_, hlt⟩, hnot.2⟩
    exact (List.mem_cons.mp hk).resolve_left fun e => absurd hlt (by omega)

theorem card_missed_le : (missed last ns).card ≤ gaps last ns := by
  induction ns generalizing last with
  | nil => exact Nat.le_zero.mpr (Finset.card_eq_zero.mpr (Finset.eq_empty_of_forall_notMem fun m hm => by
      obtain ⟨_, ⟨k, hk, _⟩, _⟩ := mem_missed.mp hm
      cases hk))
  | cons n ns ih =>
    calc (missed last (n :: ns)).card
        ≤ (Finset.Ioo last n ∪ missed n ns).card := Finset.card_le_card missed_cons_subset
      _ ≤ (Finset.Ioo last n).card + (missed n ns).card := Finset.card_union_le _ _
      _ ≤ (n - last - 1) + gaps n ns := by rw [Nat.card_Ioo]; exact Nat.add_le_add_left ih _
      _ = gaps last (n :: ns) := by rw [gaps, Nat.sub_sub]

/-- In order, what lies before the next is missed. -/
theorem missed_cons (hn : last < n) (hns : ∀ k ∈ ns, n < k) : missed last (n :: ns) = Finset.Ioo last n ∪ missed n ns := by
  refine Finset.Subset.antisymm missed_cons_subset fun m hm => ?_
  rw [mem_missed]
  rcases Finset.mem_union.mp hm with hm | hm
  · obtain ⟨hlast, hmn⟩ := Finset.mem_Ioo.mp hm
    refine ⟨hlast, ⟨n, List.mem_cons_self, hmn⟩, fun hmem => ?_⟩
    rcases List.mem_cons.mp hmem with rfl | hmem
    · exact lt_irrefl _ hmn
    · exact absurd (hns m hmem) (by omega)
  · obtain ⟨hlast, ⟨k, hk, hlt⟩, hnot⟩ := mem_missed.mp hm
    refine ⟨hn.trans hlast, ⟨k, List.mem_cons_of_mem n hk, hlt⟩, fun hmem => ?_⟩
    exact (List.mem_cons.mp hmem).elim (fun e => absurd hlast (by omega)) hnot

theorem card_missed (h : (last :: ns).Pairwise (· < ·)) : (missed last ns).card = gaps last ns := by
  induction ns generalizing last with
  | nil => exact Nat.le_zero.mp card_missed_le
  | cons n ns ih =>
    obtain ⟨hlast, htail⟩ := List.pairwise_cons.mp h
    obtain ⟨hns, _⟩ := List.pairwise_cons.mp htail
    have hdisjoint : Disjoint (Finset.Ioo last n) (missed n ns) := by
      refine Finset.disjoint_left.mpr fun m hm hm' => ?_
      exact absurd (Finset.mem_Ioo.mp hm).2 (by have := (mem_missed.mp hm').1; omega)
    rw [missed_cons (hlast n List.mem_cons_self) hns, Finset.card_union_of_disjoint hdisjoint, ih htail, Nat.card_Ioo, gaps,
      Nat.sub_sub]

theorem gaps_eq_zero_iff (h : (last :: ns).Pairwise (· < ·)) : gaps last ns = 0 ↔ ns = List.range' (last + 1) ns.length := by
  induction ns generalizing last with
  | nil => simp [gaps]
  | cons n ns ih =>
    obtain ⟨hlast, htail⟩ := List.pairwise_cons.mp h
    have hn := hlast n List.mem_cons_self
    rw [gaps, Nat.add_eq_zero_iff, ih htail, List.length_cons, List.range'_succ, List.cons.injEq]
    constructor
    · rintro ⟨hz, hns⟩
      have he : n = last + 1 := by omega
      exact ⟨he, by rw [← he]; exact hns⟩
    · rintro ⟨he, hns⟩
      exact ⟨by omega, by rw [he]; exact hns⟩

end Lob.Base.Gaps
