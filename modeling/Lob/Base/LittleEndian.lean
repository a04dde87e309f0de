/-
  Lob.Base.LittleEndian — little-endian integers and byte buffers.

  `leBytes k v` are the low `k` bytes of `v`, lowest first; `leValue` puts them back
  together. Each is the other's inverse (`leValue_leBytes`, `leBytes_leValue`).
  `overwrite f n p` is a memory with `p` written at `n`.
-/

import Mathlib.Data.List.Basic
import Mathlib.Data.List.Induction
import Mathlib.Data.Nat.Bitwise

namespace Lob.Base.LittleEndian

/-! ## Integers -/

def leBytes (k v : Nat) : List UInt8 := (List.range k).map fun i => UInt8.ofNat (v >>> (8 * i))

def leValue (p : List UInt8) : Nat :=
  (List.range p.length).foldl (fun v i => v ||| ((p.getD i 0).toNat <<< (8 * i))) 0

@[simp] theorem leBytes_length (k v : Nat) : (leBytes k v).length = k := by simp [leBytes]

theorem leBytes_succ (k v : Nat) : leBytes (k + 1) v = leBytes k v ++ [UInt8.ofNat (v >>> (8 * k))] := by
  simp [leBytes, List.range_succ]

theorem leValue_concat (p : List UInt8) (b : UInt8) (hp : leValue p < 2 ^ (8 * p.length)) :
    leValue (p ++ [b]) = leValue p + b.toNat * 2 ^ (8 * p.length) := by
  have hpre : (List.range p.length).foldl (fun v i => v ||| (((p ++ [b]).getD i 0).toNat <<< (8 * i))) 0 = leValue p := by
    unfold leValue
    refine List.foldl_ext _ _ _ fun v i hi => ?_
    rw [List.getD_append _ _ _ _ (List.mem_range.mp hi)]
  have hlast : (p ++ [b]).getD p.length 0 = b := by
    rw [List.getD_append_right _ _ _ _ (Nat.le_refl _), Nat.sub_self]
    rfl
  rw [leValue, List.length_append, List.length_singleton, List.range_succ, List.foldl_append, hpre, List.foldl_cons,
    List.foldl_nil, hlast, Nat.lor_comm, ← Nat.shiftLeft_add_eq_or_of_lt hp, Nat.shiftLeft_eq, Nat.add_comm]

theorem leValue_lt (p : List UInt8) : leValue p < 2 ^ (8 * p.length) := by
  induction p using List.reverseRecOn with
  | nil => exact Nat.one_pos
  | append_singleton p b ih =>
    have hb : b.toNat + 1 ≤ 256 := b.toNat_lt
    have hle := Nat.mul_le_mul_right (2 ^ (8 * p.length)) hb
    have hpow : 2 ^ (8 * (p.length + 1)) = 256 * 2 ^ (8 * p.length) := by
      rw [Nat.mul_succ, Nat.pow_add, Nat.mul_comm]
    rw [leValue_concat p b ih, List.length_append, List.length_singleton, hpow]
    rw [Nat.add_mul, Nat.one_mul] at hle
    omega

/-- Writing an integer and reading it back keeps its low bytes. -/
theorem leValue_leBytes (k v : Nat) : leValue (leBytes k v) = v % 2 ^ (8 * k) := by
  induction k with
  | zero => rw [Nat.mul_zero, Nat.pow_zero, Nat.mod_one]; rfl
  | succ k ih =>
    have hlt := leValue_lt (leBytes k v)
    rw [leBytes_succ, leValue_concat _ _ hlt, ih, leBytes_length]
    have hpow : 2 ^ (8 * (k + 1)) = 2 ^ (8 * k) * 2 ^ 8 := by rw [Nat.mul_succ, Nat.pow_add]
    rw [hpow, Nat.mod_mul, Nat.shiftRight_eq_div_pow, UInt8.toNat_ofNat', Nat.mul_comm (2 ^ (8 * k))]

/-- Reading an integer and writing it back keeps its bytes. -/
theorem leBytes_leValue (p : List UInt8) : leBytes p.length (leValue p) = p := by
  induction p using List.reverseRecOn with
  | nil => rfl
  | append_singleton p b ih =>
    have hlt := leValue_lt p
    rw [List.length_append, List.length_singleton, leBytes_succ, leValue_concat p b hlt]
    congr 1
    · refine Eq.trans (List.map_congr_left fun i hi => ?_) ih
      have hi : i < p.length := List.mem_range.mp hi
      have hsplit : 2 ^ (8 * p.length) = 2 ^ (8 * i) * (256 * 2 ^ (8 * (p.length - i - 1))) := by
        rw [show 256 = 2 ^ 8 from rfl, ← Nat.pow_add, ← Nat.pow_add]
        congr 1
        omega
      refine UInt8.toNat_inj.mp ?_
      rw [UInt8.toNat_ofNat', UInt8.toNat_ofNat', Nat.shiftRight_eq_div_pow, Nat.shiftRight_eq_div_pow, hsplit,
        Nat.mul_left_comm, Nat.add_mul_div_left _ _ (Nat.two_pow_pos _), Nat.mul_left_comm, Nat.add_mul_mod_self_left]
    · rw [Nat.shiftRight_eq_div_pow, Nat.mul_comm, Nat.add_mul_div_left _ _ (Nat.two_pow_pos _), Nat.div_eq_of_lt hlt,
        Nat.zero_add, UInt8.ofNat_toNat]

/-! ## Buffers -/

def overwrite {α : Type} (f : Nat → α) (n : Nat) (p : List α) : Nat → α :=
  fun i => if h : n ≤ i ∧ i < n + p.length then p.get ⟨i - n, by omega⟩ else f i

variable {α : Type} (f : Nat → α) (n : Nat) (p q : List α)

theorem overwrite_of_not {i : Nat} (h : ¬ (n ≤ i ∧ i < n + p.length)) : overwrite f n p i = f i := dif_neg h

@[simp] theorem overwrite_nil : overwrite f n [] = f := by
  funext i
  exact overwrite_of_not f n [] (by simp)

/-- One write after another. -/
theorem overwrite_append : overwrite (overwrite f n p) (n + p.length) q = overwrite f n (p ++ q) := by
  funext i
  unfold overwrite
  by_cases h1 : n + p.length ≤ i ∧ i < n + p.length + q.length
  · have h2 : n ≤ i ∧ i < n + (p ++ q).length := by rw [List.length_append]; omega
    rw [dif_pos h1, dif_pos h2, List.get_eq_getElem, List.get_eq_getElem, List.getElem_append_right (by simp; omega)]
    congr 1
    simp
    omega
  · rw [dif_neg h1]
    by_cases h2 : n ≤ i ∧ i < n + p.length
    · have h3 : n ≤ i ∧ i < n + (p ++ q).length := by rw [List.length_append]; omega
      rw [dif_pos h2, dif_pos h3, List.get_eq_getElem, List.get_eq_getElem, List.getElem_append_left]
    · have h3 : ¬ (n ≤ i ∧ i < n + (p ++ q).length) := by rw [List.length_append]; omega
      rw [dif_neg h2, dif_neg h3]

/-- The bytes written. -/
theorem range_overwrite : (List.range p.length).map (overwrite f 0 p) = p := by
  refine List.ext_getElem (by simp) fun i h1 h2 => ?_
  rw [List.getElem_map, List.getElem_range, overwrite, dif_pos ⟨Nat.zero_le i, by simpa using h2⟩]
  rfl

end Lob.Base.LittleEndian
