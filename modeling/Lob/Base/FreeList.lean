/-
  Lob.Base.FreeList — places in a byte memory, chained by a word at the start of each.

  `load` and `store` are a 64-bit word at an address. `Chain m p xs`: from `p` on the words
  lead through the places `xs`, and 0 ends them. Two places of a size are `Apart` when their
  bytes are not shared; what is written elsewhere leaves a chain as it is (`Chain.congr`), and
  a place apart from a chain's own can be put in front of it (`Chain.push`). `spread` are the
  places of a block, one stride after the other.
-/

import Lob.Base.LittleEndian
import Mathlib.Data.List.Pairwise

namespace Lob.Base.FreeList

open LittleEndian

abbrev Memory := Nat → UInt8

/-! ## Words -/

def load (m : Memory) (a : Nat) : Nat := leValue ((List.range 8).map fun i => m (a + i))

def store (m : Memory) (a v : Nat) : Memory := overwrite m a (leBytes 8 v)

variable {m m' : Memory} {a v i : Nat}

theorem store_of_not (h : ¬ (a ≤ i ∧ i < a + 8)) : store m a v i = m i :=
  overwrite_of_not m a _ (by rwa [leBytes_length])

theorem load_congr (h : ∀ i < 8, m' (a + i) = m (a + i)) : load m' a = load m a := by
  unfold load
  congr 1
  exact List.map_congr_left fun i hi => h i (List.mem_range.mp hi)

theorem load_store (hv : v < 2 ^ 64) : load (store m a v) a = v := by
  have hbytes : (List.range 8).map (fun i => store m a v (a + i)) = leBytes 8 v := by
    refine List.ext_getElem (by simp) fun i h1 h2 => ?_
    rw [List.getElem_map, List.getElem_range, store, overwrite, dif_pos ⟨Nat.le_add_right a i, by omega⟩]
    exact congrArg (leBytes 8 v).get (Fin.ext (Nat.add_sub_cancel_left a i))
  rw [load, hbytes, leValue_leBytes]
  exact Nat.mod_eq_of_lt hv

/-! ## Places -/

/-- Two places of `size` bytes that share none. -/
def Apart (size p q : Nat) : Prop := p + size ≤ q ∨ q + size ≤ p

theorem Apart.symm {size p q : Nat} (h : Apart size p q) : Apart size q p := Or.symm h

theorem Apart.mono {size size' p q : Nat} (h : Apart size p q) (hs : size' ≤ size) : Apart size' p q := by
  unfold Apart at *
  omega

/-- What is written within one place is outside the other. -/
theorem Apart.outside {size p q : Nat} (h : Apart size p q) (h1 : p ≤ i) (h2 : i < p + size) : ¬ (q ≤ i ∧ i < q + size) := by
  unfold Apart at h
  omega

theorem Apart.ne {size p q : Nat} (h : Apart size p q) (h0 : 0 < size) : p ≠ q := by
  unfold Apart at h
  omega

/-- The places of a block at `base`. -/
def spread (stride base n : Nat) : List Nat := (List.range n).map fun i => base + i * stride

variable {stride base n p : Nat}

theorem spread_succ : spread stride base (n + 1) = spread stride base n ++ [base + n * stride] := by
  unfold spread
  rw [List.range_succ, List.map_append]
  rfl

theorem mem_spread : p ∈ spread stride base n ↔ ∃ i < n, p = base + i * stride := by
  unfold spread
  rw [List.mem_map]
  constructor
  · rintro ⟨i, hi, rfl⟩
    exact ⟨i, List.mem_range.mp hi, rfl⟩
  · rintro ⟨i, hi, rfl⟩
    exact ⟨i, List.mem_range.mpr hi, rfl⟩

/-- They lie in the block. -/
theorem spread_within (h : p ∈ spread stride base n) : base ≤ p ∧ p + stride ≤ base + n * stride := by
  obtain ⟨i, hi, rfl⟩ := mem_spread.mp h
  have hmul := Nat.mul_le_mul_right stride hi
  rw [Nat.succ_mul] at hmul
  omega

theorem spread_apart (stride base n : Nat) : (spread stride base n).Pairwise (Apart stride) := by
  unfold spread
  rw [List.pairwise_map]
  refine List.pairwise_lt_range.imp fun {i j} hij => Or.inl ?_
  have hmul := Nat.mul_le_mul_right stride hij
  rw [Nat.succ_mul] at hmul
  omega

/-! ## Chains -/

def Chain (m : Memory) : Nat → List Nat → Prop
  | p, [] => p = 0
  | p, x :: xs => p = x ∧ x ≠ 0 ∧ Chain m (load m x) xs

variable {xs : List Nat}

theorem Chain.congr (h : Chain m p xs) (hm : ∀ x ∈ xs, ∀ i < 8, m' (x + i) = m (x + i)) : Chain m' p xs := by
  induction xs generalizing p with
  | nil => exact h
  | cons x xs ih =>
    obtain ⟨hp, h0, hrest⟩ := h
    refine ⟨hp, h0, ?_⟩
    rw [load_congr (hm x List.mem_cons_self)]
    exact ih hrest fun y hy => hm y (List.mem_cons_of_mem x hy)

/-- The first place is where the chain starts. -/
theorem Chain.head (h : Chain m p xs) : p = xs.headD 0 := by
  cases xs with
  | nil => exact h
  | cons x xs => exact h.1

theorem Chain.push (h : Chain m p xs) {x : Nat} (h0 : x ≠ 0) (hp : p < 2 ^ 64) (hx : ∀ y ∈ xs, Apart 8 x y) :
    Chain (store m x p) x (x :: xs) := by
  refine ⟨rfl, h0, ?_⟩
  rw [load_store hp]
  refine h.congr fun y hy i hi => store_of_not ?_
  exact (hx y hy).symm.outside (Nat.le_add_right y i) (Nat.add_lt_add_left hi y)

end Lob.Base.FreeList
