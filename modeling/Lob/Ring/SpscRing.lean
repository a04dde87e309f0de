/-
  Lob.Ring.SpscRing — the bounded single-producer single-consumer queue (`spsc_ring.hpp`).

  `buf` is the vector, a function of the slot; every index is masked. `tryPush` and
  `tryPop` are the calls run without interruption; `Lob.Ring.Interleaving` takes them
  apart into the steps two threads interleave.

  `At r C q c0 p0`: the ring holds the values `q` at stream positions `C`, `C + 1`, …; the
  producer's copy of the tail is from when it stood at position `c0`, the consumer's copy
  of the head from when it stood at `p0`. The lemmas below it are the steps of both calls,
  and `tryPush_spec`, `tryPop_spec` the calls.
-/

import Lob.Base.Cyclic
import Mathlib.Logic.Function.Basic

namespace Lob

open Lob.Base.Cyclic

structure SpscRing (T : Type) where
  buf : Nat → T
  mask : Nat
  head : Nat := 0
  tailCache : Nat := 0
  tail : Nat := 0
  headCache : Nat := 0

namespace SpscRing

variable {T : Type}

/-- `while (cap < min_capacity) cap <<= 1`. -/
def capFor (minCapacity : Nat) : Nat → Nat → Nat
  | 0, cap => cap
  | n + 1, cap => if cap < minCapacity then capFor minCapacity n (cap <<< 1) else cap

def make [Inhabited T] (minCapacity : Nat) : SpscRing T :=
  { buf := fun _ => default, mask := capFor minCapacity minCapacity 2 - 1 }

variable (r : SpscRing T)

def capacity : Nat := r.mask + 1

/-- `(i + 1) & mask_`. -/
def next (i : Nat) : Nat := (i + 1) &&& r.mask

/-- The slot write and the publishing store of `try_push`. -/
def store (v : T) : SpscRing T := { r with buf := Function.update r.buf r.head v, head := r.next r.head }

def tryPush (v : T) : SpscRing T × Bool :=
  if r.next r.head = r.tailCache then
    let r := { r with tailCache := r.tail }
    if r.next r.head = r.tailCache then (r, false) else (r.store v, true)
  else (r.store v, true)

/-- The slot read and the publishing store of `try_pop`. -/
def take : SpscRing T × Option T := ({ r with tail := r.next r.tail }, some (r.buf r.tail))

def tryPop : SpscRing T × Option T :=
  if r.tail = r.headCache then
    let r := { r with headCache := r.head }
    if r.tail = r.headCache then (r, none) else r.take
  else r.take

/-- The `size_t` difference wraps modulo 2^64, a multiple of the capacity. -/
def sizeApprox : Nat := (r.head + r.capacity - r.tail) &&& r.mask

/-- The values between the two indices, oldest first. -/
def contents : List T := (List.range r.sizeApprox).map fun k => r.buf ((r.tail + k) &&& r.mask)

/-! ## The constructor -/

theorem capFor_ge (minCapacity : Nat) : ∀ n cap, 0 < cap → minCapacity ≤ cap + n → minCapacity ≤ capFor minCapacity n cap := by
  intro n
  induction n with
  | zero => intro cap _ h; exact h
  | succ n ih =>
    intro cap h0 h
    unfold capFor
    split
    · refine ih _ ?_ ?_ <;> rw [Nat.shiftLeft_eq] <;> omega
    · rename_i hge
      exact Nat.le_of_not_lt hge

/-- The capacity is a power of two, at least 2 and at least what was asked for. -/
theorem make_capacity [Inhabited T] (minCapacity : Nat) :
    (∃ n, (make minCapacity : SpscRing T).mask + 1 = 2 ^ n) ∧ 2 ≤ (make minCapacity : SpscRing T).capacity ∧
      minCapacity ≤ (make minCapacity : SpscRing T).capacity := by
  obtain ⟨b, hb, e⟩ := doubling_pow (f := capFor minCapacity) (fun _ => rfl) (fun _ _ => ite_eq_or_eq ..) minCapacity 1
  have h2 : 2 ≤ 2 ^ b := Nat.le_self_pow (by omega) 2
  have hge := capFor_ge minCapacity minCapacity (2 ^ 1) (by decide) (by omega)
  rw [e] at hge
  have hc : (make minCapacity : SpscRing T).mask + 1 = 2 ^ b := by
    show capFor minCapacity minCapacity (2 ^ 1) - 1 + 1 = 2 ^ b
    rw [e]
    omega
  refine ⟨⟨b, hc⟩, ?_, ?_⟩ <;> rw [capacity, hc] <;> assumption

/-! ## Where the values are -/

structure At (r : SpscRing T) (C : Nat) (q : List T) (c0 p0 : Nat) : Prop where
  pow : ∃ n, r.mask + 1 = 2 ^ n
  two : 2 ≤ r.capacity
  head : r.head = (C + q.length) % r.capacity
  tail : r.tail = C % r.capacity
  tailCache : r.tailCache = c0 % r.capacity
  headCache : r.headCache = p0 % r.capacity
  room : C + q.length < c0 + r.capacity
  tailPast : c0 ≤ C
  headPast : p0 ≤ C + q.length
  headAhead : C ≤ p0
  cells : ∀ k (h : k < q.length), r.buf ((C + k) % r.capacity) = q.get ⟨k, h⟩

variable {r : SpscRing T} {C c0 p0 : Nat} {q : List T}

theorem make_at [Inhabited T] (minCapacity : Nat) : At (make minCapacity : SpscRing T) 0 [] 0 0 := by
  obtain ⟨hpow, htwo, _⟩ := make_capacity (T := T) minCapacity
  refine ⟨hpow, htwo, (Nat.zero_mod _).symm, (Nat.zero_mod _).symm, (Nat.zero_mod _).symm, (Nat.zero_mod _).symm, ?_,
    Nat.le_refl _, Nat.le_refl _, Nat.le_refl _, fun k h => absurd h (Nat.not_lt_zero k)⟩
  rw [List.length_nil]
  omega

theorem next_eq (hpow : ∃ n, r.mask + 1 = 2 ^ n) (k : Nat) : r.next (k % r.capacity) = (k + 1) % r.capacity := by
  obtain ⟨n, hn⟩ := hpow
  rw [next, and_mask hn]
  exact succ_mod k _

/-- One slot is always unused. -/
theorem At.length_lt (h : At r C q c0 p0) : q.length < r.capacity := by
  have := h.room
  have := h.tailPast
  omega

/-- The producer's view of the tail says the ring is full. -/
theorem At.full_iff (h : At r C q c0 p0) : r.next r.head = r.tailCache ↔ C + q.length + 1 = c0 + r.capacity := by
  rw [h.head, next_eq h.pow, h.tailCache]
  exact slot_meet (Nat.le_trans h.tailPast (Nat.le_add_right ..)) h.room

/-- The consumer's view of the head says the ring is empty. -/
theorem At.empty_iff (h : At r C q c0 p0) : r.tail = r.headCache ↔ p0 = C := by
  rw [h.tail, h.headCache]
  constructor
  · intro e
    have := h.length_lt
    have := h.headPast
    exact (slot_inj h.headAhead (by omega) e).symm
  · intro e
    rw [e]

theorem At.has_room (h : At r C q c0 p0) (hf : r.next r.head ≠ r.tailCache) : C + q.length + 1 < c0 + r.capacity := by
  have hroom := h.room
  have hne : C + q.length + 1 ≠ c0 + r.capacity := fun e => hf (h.full_iff.mpr e)
  omega

theorem At.has_value (h : At r C q c0 p0) (he : r.tail ≠ r.headCache) : C < p0 := by
  have hahead := h.headAhead
  have hne : p0 ≠ C := fun e => he (h.empty_iff.mpr e)
  omega

theorem At.reloadTail (h : At r C q c0 p0) : At { r with tailCache := r.tail } C q C p0 :=
  ⟨h.pow, h.two, h.head, h.tail, h.tail, h.headCache, Nat.add_lt_add_left h.length_lt C, Nat.le_refl _, h.headPast,
    h.headAhead, h.cells⟩

theorem At.reloadHead (h : At r C q c0 p0) : At { r with headCache := r.head } C q c0 (C + q.length) :=
  ⟨h.pow, h.two, h.head, h.tail, h.tailCache, h.head, h.room, h.tailPast, Nat.le_refl _, Nat.le_add_right .., h.cells⟩

/-- The slot at the head holds none of the values. -/
theorem At.free (h : At r C q c0 p0) {k : Nat} (hC : C ≤ k) (hk : k < C + q.length) : k % r.capacity ≠ r.head := by
  rw [h.head]
  intro e
  have := h.length_lt
  have := slot_inj (Nat.le_of_lt hk) (by omega) e
  omega

theorem At.write (h : At r C q c0 p0) (v : T) : At { r with buf := Function.update r.buf r.head v } C q c0 p0 := by
  refine ⟨h.pow, h.two, h.head, h.tail, h.tailCache, h.headCache, h.room, h.tailPast, h.headPast, h.headAhead,
    fun k hk => ?_⟩
  show Function.update r.buf r.head v ((C + k) % r.capacity) = _
  rw [Function.update_of_ne (h.free (Nat.le_add_right ..) (Nat.add_lt_add_left hk C)), h.cells k hk]

theorem At.publish (h : At r C q c0 p0) {v : T} (hv : r.buf r.head = v) (hroom : C + q.length + 1 < c0 + r.capacity) :
    At { r with head := r.next r.head } C (q ++ [v]) c0 p0 := by
  have hlen : (q ++ [v]).length = q.length + 1 := List.length_append
  refine ⟨h.pow, h.two, ?_, h.tail, h.tailCache, h.headCache, ?_, h.tailPast, ?_, h.headAhead, fun k hk => ?_⟩
  · show r.next r.head = _
    rw [h.head, next_eq h.pow, hlen]
    rfl
  · rw [hlen]
    exact hroom
  · have := h.headPast
    omega
  · rw [hlen] at hk
    show r.buf ((C + k) % r.capacity) = _
    rcases Nat.lt_or_eq_of_le (Nat.le_of_lt_succ hk) with hlt | rfl
    · rw [h.cells k hlt]
      exact (List.getElem_append_left hlt).symm
    · rw [← h.head, hv]
      exact (List.getElem_concat_length rfl _).symm

theorem At.oldest (h : At r C q c0 p0) (hne : C < p0) : ∃ v q', q = v :: q' ∧ r.buf r.tail = v := by
  have := h.headPast
  cases q with
  | nil => exact absurd this (by rw [List.length_nil]; omega)
  | cons v q' =>
    refine ⟨v, q', rfl, ?_⟩
    rw [h.tail]
    exact h.cells 0 (Nat.succ_pos _)

theorem At.consume {v : T} (h : At r C (v :: q) c0 p0) (hne : C < p0) : At { r with tail := r.next r.tail } (C + 1) q c0 p0 := by
  have hroom := h.room
  have hpast := h.tailPast
  have hp := h.headPast
  rw [List.length_cons] at hroom hp
  refine ⟨h.pow, h.two, ?_, ?_, h.tailCache, h.headCache, ?_, by omega, by omega, hne, fun k hk => ?_⟩
  · rw [Nat.add_right_comm]
    exact h.head
  · show r.next r.tail = _
    rw [h.tail, next_eq h.pow]
    rfl
  · show C + 1 + q.length < c0 + r.capacity
    omega
  · have := h.cells (k + 1) (Nat.succ_lt_succ hk)
    rw [← Nat.add_assoc, Nat.add_right_comm] at this
    exact this

/-! ## The calls, uninterrupted -/

/-- The ring holds the values `q`, oldest first. -/
def Holds (r : SpscRing T) (q : List T) : Prop := ∃ C c0 p0, At r C q c0 p0

theorem make_holds [Inhabited T] (minCapacity : Nat) : Holds (make minCapacity : SpscRing T) [] :=
  ⟨0, 0, 0, make_at minCapacity⟩

theorem At.store (h : At r C q c0 p0) (v : T) (hroom : C + q.length + 1 < c0 + r.capacity) :
    At (r.store v) C (q ++ [v]) c0 p0 :=
  (h.write v).publish (Function.update_self ..) hroom

/-- `try_push` fails exactly on `capacity - 1` values, and else appends. -/
theorem tryPush_spec (h : Holds r q) (v : T) :
    (r.tryPush v).1.capacity = r.capacity ∧
      if q.length + 1 = r.capacity then (r.tryPush v).2 = false ∧ Holds (r.tryPush v).1 q
      else (r.tryPush v).2 = true ∧ Holds (r.tryPush v).1 (q ++ [v]) := by
  obtain ⟨C, c0, p0, h⟩ := h
  have hpast := h.tailPast
  have h' := h.reloadTail
  have hfull' := h'.full_iff
  unfold tryPush
  by_cases hf : r.next r.head = r.tailCache
  · simp only [if_pos hf]
    by_cases hf' : r.next r.head = r.tail
    · have e : q.length + 1 = r.capacity := by
        have := hfull'.mp hf'
        rw [Nat.add_assoc] at this
        exact Nat.add_left_cancel this
      rw [if_pos (show next { r with tailCache := r.tail } r.head = r.tail from hf'), if_pos e]
      exact ⟨rfl, rfl, C, C, p0, h'⟩
    · have hne : q.length + 1 ≠ r.capacity := fun e => hf' (hfull'.mpr (by rw [Nat.add_assoc, e]; rfl))
      rw [if_neg (show ¬ next { r with tailCache := r.tail } r.head = r.tail from hf'), if_neg hne]
      exact ⟨rfl, rfl, C, C, p0, h'.store v (h'.has_room hf')⟩
  · have hroom := h.has_room hf
    have hne : q.length + 1 ≠ r.capacity := by omega
    rw [if_neg hf, if_neg hne]
    exact ⟨rfl, rfl, C, c0, p0, h.store v hroom⟩

/-- `try_pop` fails exactly on the empty ring, and else takes the oldest value. -/
theorem tryPop_spec (h : Holds r q) :
    r.tryPop.1.capacity = r.capacity ∧ r.tryPop.2 = q.head? ∧ Holds r.tryPop.1 q.tail := by
  obtain ⟨C, c0, p0, h⟩ := h
  have htake : ∀ (r : SpscRing T) (p0 : Nat), At r C q c0 p0 → C < p0 →
      r.take.1.capacity = r.capacity ∧ r.take.2 = q.head? ∧ Holds r.take.1 q.tail := by
    intro r p0 h hne
    obtain ⟨v, q', rfl, hv⟩ := h.oldest hne
    exact ⟨rfl, congrArg some hv, C + 1, c0, p0, h.consume hne⟩
  unfold tryPop
  by_cases he : r.tail = r.headCache
  · simp only [if_pos he]
    have h' := h.reloadHead
    by_cases he' : r.tail = r.head
    · rw [if_pos (show r.tail = r.head from he')]
      have e := h'.empty_iff.mp he'
      have hnil : q = [] := List.eq_nil_of_length_eq_zero (by omega)
      subst hnil
      exact ⟨rfl, rfl, C, c0, C, h'⟩
    · rw [if_neg (show ¬ r.tail = r.head from he')]
      exact htake _ _ h' (h'.has_value he')
  · simp only [if_neg he]
    exact htake r p0 h (h.has_value he)

theorem sizeApprox_eq (h : Holds r q) : r.sizeApprox = q.length := by
  obtain ⟨C, c0, p0, h⟩ := h
  obtain ⟨n, hn⟩ := h.pow
  have hlen := h.length_lt
  have hcap : r.mask + 1 = r.capacity := rfl
  rw [sizeApprox, and_mask hn, hcap, h.head, h.tail]
  have h1 := Nat.mod_lt C (show 0 < r.capacity by omega)
  have h2 := Nat.mod_lt (C + q.length) (show 0 < r.capacity by omega)
  have h3 : (C + q.length) % r.capacity = (C % r.capacity + q.length) % r.capacity := (Nat.mod_add_mod ..).symm
  rw [h3]
  rcases Nat.lt_or_ge (C % r.capacity + q.length) r.capacity with hlt | hge
  · rw [Nat.mod_eq_of_lt hlt, show C % r.capacity + q.length + r.capacity - C % r.capacity = q.length + r.capacity by omega,
      Nat.add_mod_right, Nat.mod_eq_of_lt hlen]
  · rw [Nat.mod_eq_sub_mod hge, Nat.mod_eq_of_lt (show C % r.capacity + q.length - r.capacity < r.capacity by omega),
      show C % r.capacity + q.length - r.capacity + r.capacity - C % r.capacity = q.length by omega, Nat.mod_eq_of_lt hlen]

theorem contents_eq (h : Holds r q) : r.contents = q := by
  have hsize := sizeApprox_eq h
  obtain ⟨C, c0, p0, h⟩ := h
  obtain ⟨n, hn⟩ := h.pow
  have hcap : r.mask + 1 = r.capacity := rfl
  unfold contents
  refine List.ext_getElem (by rw [List.length_map, List.length_range, hsize]) fun k _ hk => ?_
  have hslot : (r.tail + k) &&& r.mask = (C + k) % r.capacity := by
    rw [and_mask hn, hcap, h.tail, Nat.mod_add_mod]
  rw [List.getElem_map, List.getElem_range, hslot]
  exact h.cells k hk

end SpscRing

end Lob
