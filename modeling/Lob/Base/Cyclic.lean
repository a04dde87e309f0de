/-
  Lob.Base.Cyclic — positions of an unbounded stream in a cyclic buffer.

  Position `k` lives in slot `k % c`. Fewer than `c` consecutive positions are in different
  slots (`slot_inj`), so a window narrower than the buffer can be told from its ends. A
  capacity reached by doubling is a power of two (`doubling_pow`), and `k &&& (c - 1)` is the
  slot (`and_mask`).
-/

import Mathlib.Data.Nat.Bitwise
import Mathlib.Data.Nat.ModEq

namespace Lob.Base.Cyclic

/-- A masked index. -/
theorem and_mask {mask n : Nat} (h : mask + 1 = 2 ^ n) (i : Nat) : i &&& mask = i % (mask + 1) := by
  have hm : mask = 2 ^ n - 1 := by omega
  rw [hm, Nat.and_two_pow_sub_one_eq_mod, ← hm, h]

/-- Doubling, stopped whenever one likes, goes through powers of two. -/
theorem doubling_pow {f : Nat → Nat → Nat} (h0 : ∀ cap, f 0 cap = cap)
    (hs : ∀ n cap, f (n + 1) cap = f n (cap <<< 1) ∨ f (n + 1) cap = cap) (n b : Nat) :
    ∃ b', b ≤ b' ∧ f n (2 ^ b) = 2 ^ b' := by
  induction n generalizing b with
  | zero => exact ⟨b, Nat.le_refl b, h0 _⟩
  | succ n ih =>
    rcases hs n (2 ^ b) with e | e
    · obtain ⟨b', hb, e'⟩ := ih (b + 1)
      refine ⟨b', by omega, ?_⟩
      rw [e, Nat.shiftLeft_eq, ← Nat.pow_add]
      exact e'
    · exact ⟨b, Nat.le_refl b, e⟩

variable {c j k : Nat}

theorem slot_inj (hjk : j ≤ k) (hk : k < j + c) (h : j % c = k % c) : j = k := by
  have hdvd : c ∣ k - j := (Nat.modEq_iff_dvd' hjk).mp h
  have hzero : k - j = 0 := Nat.eq_zero_of_dvd_of_lt hdvd (by omega)
  omega

/-- The next slot. -/
theorem succ_mod (k c : Nat) : (k % c + 1) % c = (k + 1) % c := Nat.mod_add_mod k c 1

/-- Two ends at most `c` apart meet in a slot when they are the same or a full turn apart. -/
theorem slot_meet (hjk : j ≤ k) (hk : k < j + c) : (k + 1) % c = j % c ↔ k + 1 = j + c := by
  constructor
  · intro h
    rcases Nat.lt_or_ge (k + 1) (j + c) with hlt | hge
    · have := slot_inj (Nat.le_succ_of_le hjk) hlt h.symm
      omega
    · omega
  · intro h
    rw [h, Nat.add_mod_right]

/-! ## The slots of a window -/

variable {a b i : Nat}

/-- One position more at the end. -/
theorem window_snoc (hab : a ≤ b) :
    (∃ k, a ≤ k ∧ k < b + 1 ∧ k % c = i) ↔ b % c = i ∨ ∃ k, a ≤ k ∧ k < b ∧ k % c = i := by
  constructor
  · intro h
    obtain ⟨k, hak, hkb, e⟩ := h
    rcases Nat.lt_or_eq_of_le (Nat.le_of_lt_succ hkb) with hlt | rfl
    · exact Or.inr ⟨k, hak, hlt, e⟩
    · exact Or.inl e
  · intro h
    rcases h with e | ⟨k, hak, hkb, e⟩
    · exact ⟨b, hab, Nat.lt_succ_self b, e⟩
    · exact ⟨k, hak, Nat.lt_succ_of_lt hkb, e⟩

/-- One position less at the start: no other one is in its slot. -/
theorem window_tail (hab : b ≤ a + c) :
    (∃ k, a + 1 ≤ k ∧ k < b ∧ k % c = i) ↔ a % c ≠ i ∧ ∃ k, a ≤ k ∧ k < b ∧ k % c = i := by
  constructor
  · intro h
    obtain ⟨k, hak, hkb, e⟩ := h
    refine ⟨fun e' => ?_, k, Nat.le_of_succ_le hak, hkb, e⟩
    have := slot_inj (Nat.le_of_succ_le hak) (Nat.lt_of_lt_of_le hkb hab) (e'.trans e.symm)
    omega
  · intro h
    obtain ⟨hne, k, hak, hkb, e⟩ := h
    refine ⟨k, ?_, hkb, e⟩
    rcases Nat.lt_or_eq_of_le hak with hlt | rfl
    · exact hlt
    · exact absurd e hne

end Lob.Base.Cyclic
