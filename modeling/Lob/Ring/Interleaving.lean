/-
  Lob.Ring.Interleaving — one producer and one consumer on a ring, step by step.

  Each call is its atomic steps: load the own index, test it against the cached other
  index, reload the other index, test again, write or read the slot, store the own index.
  A schedule is any list of moves of the two threads.

  Beside the ring and the two threads the state keeps what happened: the values whose push
  returned true, the values popped, which slots hold a value not read yet, and for each
  refused call how many values were outstanding when it reloaded the other index.

  `Inv` is kept by every move of either thread (`Inv.produce`, `Inv.consume`).
-/

import Lob.Ring.SpscRing

namespace Lob.SpscRing

open Lob.Base.Cyclic

variable {T : Type}

/-! ## The threads -/

/-- Where the producer stands in `try_push(v)`; `h` is the local `head`. -/
inductive PushPc (T : Type) where
  | idle
  | test (v : T) (h : Nat)
  | reload (v : T) (h : Nat)
  | retest (v : T) (h : Nat)
  | write (v : T) (h : Nat)
  | store (v : T) (h : Nat)

/-- Where the consumer stands in `try_pop(out)`; `t` is the local `tail`. -/
inductive PopPc (T : Type) where
  | idle
  | test (t : Nat)
  | reload (t : Nat)
  | retest (t : Nat)
  | read (t : Nat)
  | store (t : Nat) (out : T)

structure Sys (T : Type) where
  ring : SpscRing T
  producer : PushPc T := .idle
  consumer : PopPc T := .idle
  pushed : List T := []
  popped : List T := []
  unread : Nat → Bool := fun _ => false
  /-- What was outstanding at each side's last reload. -/
  pushSeen : Nat := 0
  popSeen : Nat := 0
  pushRefused : List Nat := []
  popRefused : List Nat := []

namespace Sys

def outstanding (s : Sys T) : Nat := s.pushed.length - s.popped.length

/-- One step of the producer; an idle one starts `try_push(v)`. -/
def produce (s : Sys T) (v : T) : Sys T :=
  match s.producer with
  | .idle => { s with producer := .test v s.ring.head }
  | .test v h => { s with producer := if s.ring.next h = s.ring.tailCache then .reload v h else .write v h }
  | .reload v h =>
    { s with ring := { s.ring with tailCache := s.ring.tail }, producer := .retest v h, pushSeen := s.outstanding }
  | .retest v h =>
    if s.ring.next h = s.ring.tailCache then
      { s with producer := .idle, pushRefused := s.pushRefused ++ [s.pushSeen] }
    else { s with producer := .write v h }
  | .write v h =>
    { s with ring := { s.ring with buf := Function.update s.ring.buf h v }, producer := .store v h,
             unread := Function.update s.unread h true }
  | .store v h =>
    { s with ring := { s.ring with head := s.ring.next h }, producer := .idle, pushed := s.pushed ++ [v] }

/-- One step of the consumer. -/
def consume (s : Sys T) : Sys T :=
  match s.consumer with
  | .idle => { s with consumer := .test s.ring.tail }
  | .test t => { s with consumer := if t = s.ring.headCache then .reload t else .read t }
  | .reload t =>
    { s with ring := { s.ring with headCache := s.ring.head }, consumer := .retest t, popSeen := s.outstanding }
  | .retest t =>
    if t = s.ring.headCache then { s with consumer := .idle, popRefused := s.popRefused ++ [s.popSeen] }
    else { s with consumer := .read t }
  | .read t =>
    { s with consumer := .store t (s.ring.buf t), unread := Function.update s.unread t false }
  | .store t out =>
    { s with ring := { s.ring with tail := s.ring.next t }, consumer := .idle, popped := s.popped ++ [out] }

end Sys

inductive Move (T : Type) where
  | producer (v : T)
  | consumer

def Sys.move (s : Sys T) : Move T → Sys T
  | .producer v => s.produce v
  | .consumer => s.consume

def Sys.run (s : Sys T) (moves : List (Move T)) : Sys T := moves.foldl Sys.move s

def start [Inhabited T] (minCapacity : Nat) : Sys T := { ring := make minCapacity }

/-! ## The invariant -/

/-- Values written but not published. -/
def PushPc.ahead : PushPc T → Nat
  | .store _ _ => 1
  | _ => 0

/-- Values read but not given back. -/
def PopPc.ahead : PopPc T → Nat
  | .store _ _ => 1
  | _ => 0

/-- What the producer knows, with `P` values pushed and its view of the tail at `c0`. -/
def PushOk (r : SpscRing T) (P c0 seen : Nat) : PushPc T → Prop
  | .idle => True
  | .test _ h | .reload _ h => h = r.head
  | .retest _ h => h = r.head ∧ seen + c0 = P
  | .write _ h => h = r.head ∧ P + 1 < c0 + r.capacity
  | .store v h => h = r.head ∧ P + 1 < c0 + r.capacity ∧ r.buf h = v

/-- What the consumer knows, with `C` values popped and its view of the head at `p0`. -/
def PopOk (r : SpscRing T) (C : Nat) (q : List T) (p0 seen : Nat) : PopPc T → Prop
  | .idle => True
  | .test t | .reload t => t = r.tail
  | .retest t => t = r.tail ∧ seen + C = p0
  | .read t => t = r.tail ∧ C < p0
  | .store t out => t = r.tail ∧ C < p0 ∧ q.head? = some out

/-- The state around a queue `q` of outstanding values. -/
structure Around (s : Sys T) (q : List T) (c0 p0 : Nat) : Prop where
  queue : s.pushed = s.popped ++ q
  at_ : At s.ring s.popped.length q c0 p0
  push : PushOk s.ring (s.popped.length + q.length) c0 s.pushSeen s.producer
  pop : PopOk s.ring s.popped.length q p0 s.popSeen s.consumer
  unread : ∀ i, s.unread i = true ↔ ∃ k, s.popped.length + s.consumer.ahead ≤ k ∧
    k < s.popped.length + q.length + s.producer.ahead ∧ k % s.ring.capacity = i
  pushRefused : ∀ n ∈ s.pushRefused, n + 1 = s.ring.capacity
  popRefused : ∀ n ∈ s.popRefused, n = 0

def Inv (s : Sys T) : Prop := ∃ q c0 p0, Around s q c0 p0

variable {s : Sys T} {q : List T} {c0 p0 : Nat}

theorem Around.outstanding (h : Around s q c0 p0) : s.outstanding = q.length := by
  rw [Sys.outstanding, h.queue, List.length_append, Nat.add_sub_cancel_left]

theorem start_inv [Inhabited T] (minCapacity : Nat) : Inv (start minCapacity : Sys T) := by
  refine ⟨[], 0, 0, rfl, make_at minCapacity, trivial, trivial, fun i => ?_, fun n hn => absurd hn List.not_mem_nil,
    fun n hn => absurd hn List.not_mem_nil⟩
  refine iff_of_false Bool.false_ne_true fun hk => ?_
  obtain ⟨k, _, hk, _⟩ := hk
  exact Nat.not_lt_zero k hk

/-! ## The producer -/

/-- The slot the producer is about to write. -/
theorem Around.write_free (h : Around s q c0 p0) {v : T} {i : Nat} (hp : s.producer = .write v i) : s.unread i = false := by
  have hpush := h.push
  rw [hp] at hpush
  obtain ⟨rfl, _⟩ := hpush
  rw [← Bool.not_eq_true, h.unread, hp]
  intro hk
  obtain ⟨k, hC, hk, e⟩ := hk
  exact h.at_.free (Nat.le_of_add_right_le hC) hk e

/-- What the consumer has read, the producer has published. -/
theorem Around.ahead_le (h : Around s q c0 p0) :
    s.popped.length + s.consumer.ahead ≤ s.popped.length + q.length := by
  have hpop := h.pop
  have := h.at_.headPast
  cases hc : s.consumer with
  | store t out =>
    rw [hc] at hpop
    have := hpop.2.1
    show s.popped.length + 1 ≤ _
    omega
  | _ => exact Nat.le_add_right ..

theorem Inv.produce (hs : Inv s) (v : T) : Inv (s.produce v) := by
  obtain ⟨q, c0, p0, h⟩ := hs
  have hpush := h.push
  have hunread := h.unread
  unfold Sys.produce
  cases hp : s.producer with
  | idle =>
    rw [hp] at hunread
    exact ⟨q, c0, p0, h.queue, h.at_, rfl, h.pop, hunread, h.pushRefused, h.popRefused⟩
  | test v i =>
    rw [hp] at hpush hunread
    obtain rfl : i = s.ring.head := hpush
    by_cases hf : s.ring.next s.ring.head = s.ring.tailCache
    · simp only [if_pos hf]
      exact ⟨q, c0, p0, h.queue, h.at_, rfl, h.pop, hunread, h.pushRefused, h.popRefused⟩
    · simp only [if_neg hf]
      exact ⟨q, c0, p0, h.queue, h.at_, ⟨rfl, h.at_.has_room hf⟩, h.pop, hunread, h.pushRefused, h.popRefused⟩
  | reload v i =>
    rw [hp] at hpush hunread
    refine ⟨q, s.popped.length, p0, h.queue, h.at_.reloadTail, ⟨hpush, ?_⟩, ?_, hunread, h.pushRefused, h.popRefused⟩
    · rw [h.outstanding]
      exact Nat.add_comm ..
    · have := h.pop
      cases hc : s.consumer <;> rw [hc] at this <;> exact this
  | retest v i =>
    rw [hp] at hpush hunread
    obtain ⟨rfl, hseen⟩ := hpush
    by_cases hf : s.ring.next s.ring.head = s.ring.tailCache
    · simp only [if_pos hf]
      refine ⟨q, c0, p0, h.queue, h.at_, trivial, h.pop, hunread, fun n hn => ?_, h.popRefused⟩
      have hfull := h.at_.full_iff.mp hf
      rcases List.mem_append.mp hn with hn | hn
      · exact h.pushRefused n hn
      · rw [List.mem_singleton] at hn
        show n + 1 = s.ring.capacity
        omega
    · simp only [if_neg hf]
      exact ⟨q, c0, p0, h.queue, h.at_, ⟨rfl, h.at_.has_room hf⟩, h.pop, hunread, h.pushRefused, h.popRefused⟩
  | write v i =>
    rw [hp] at hpush hunread
    obtain ⟨rfl, hroom⟩ := hpush
    refine ⟨q, c0, p0, h.queue, h.at_.write v, ⟨rfl, hroom, Function.update_self ..⟩, ?_, fun i => ?_, h.pushRefused, h.popRefused⟩
    · have := h.pop
      cases hc : s.consumer <;> rw [hc] at this <;> exact this
    · -- the value written is the last of the window
      show Function.update s.unread s.ring.head true i = true ↔ ∃ k, _ ∧ k < s.popped.length + q.length + 1 ∧ k % s.ring.capacity = i
      rw [window_snoc h.ahead_le, ← h.at_.head]
      by_cases e : s.ring.head = i
      · rw [e, Function.update_self]
        exact iff_of_true rfl (Or.inl rfl)
      · rw [Function.update_of_ne (Ne.symm e), or_iff_right e]
        exact hunread i
  | store v i =>
    rw [hp] at hpush hunread
    obtain ⟨rfl, hroom, hv⟩ := hpush
    have hlen : (q ++ [v]).length = q.length + 1 := List.length_append
    refine ⟨q ++ [v], c0, p0, ?_, h.at_.publish hv hroom, trivial, ?_, fun i => ?_, h.pushRefused, h.popRefused⟩
    · show s.pushed ++ [v] = s.popped ++ (q ++ [v])
      rw [h.queue, List.append_assoc]
    · have hpop := h.pop
      cases hc : s.consumer with
      | store t out =>
        rw [hc] at hpop
        obtain ⟨ht, hlt, hout⟩ := hpop
        exact ⟨ht, hlt, by rw [List.head?_append, hout]; rfl⟩
      | _ => rw [hc] at hpop; exact hpop
    · rw [hlen]
      exact hunread i

/-! ## The consumer -/

/-- The slot the consumer is about to read. -/
theorem Around.read_written (h : Around s q c0 p0) {t : Nat} (hc : s.consumer = .read t) : s.unread t = true := by
  have hpop := h.pop
  rw [hc] at hpop
  obtain ⟨rfl, hlt⟩ := hpop
  have := h.at_.headPast
  rw [h.unread, hc]
  exact ⟨s.popped.length, Nat.le_refl _, Nat.lt_of_lt_of_le (Nat.lt_of_lt_of_le hlt this) (Nat.le_add_right ..),
    h.at_.tail.symm⟩

/-- The values in the ring, with one being written, fit it. -/
theorem Around.ahead_fits (h : Around s q c0 p0) :
    s.popped.length + q.length + s.producer.ahead ≤ s.popped.length + s.ring.capacity := by
  have hpush := h.push
  have hroom := h.at_.room
  have hpast := h.at_.tailPast
  cases hp : s.producer with
  | store v i =>
    rw [hp] at hpush
    have := hpush.2.1
    show s.popped.length + q.length + 1 ≤ _
    omega
  | _ =>
    show s.popped.length + q.length + 0 ≤ _
    omega

theorem Inv.consume (hs : Inv s) : Inv s.consume := by
  obtain ⟨q, c0, p0, h⟩ := hs
  have hpop := h.pop
  have hunread := h.unread
  unfold Sys.consume
  cases hc : s.consumer with
  | idle =>
    rw [hc] at hunread
    exact ⟨q, c0, p0, h.queue, h.at_, h.push, rfl, hunread, h.pushRefused, h.popRefused⟩
  | test t =>
    rw [hc] at hpop hunread
    obtain rfl : t = s.ring.tail := hpop
    by_cases he : s.ring.tail = s.ring.headCache
    · simp only [if_pos he]
      exact ⟨q, c0, p0, h.queue, h.at_, h.push, rfl, hunread, h.pushRefused, h.popRefused⟩
    · simp only [if_neg he]
      exact ⟨q, c0, p0, h.queue, h.at_, h.push, ⟨rfl, h.at_.has_value he⟩, hunread, h.pushRefused, h.popRefused⟩
  | reload t =>
    rw [hc] at hpop hunread
    refine ⟨q, c0, s.popped.length + q.length, h.queue, h.at_.reloadHead, ?_, ⟨hpop, ?_⟩, hunread, h.pushRefused, h.popRefused⟩
    · have := h.push
      cases hp : s.producer <;> rw [hp] at this <;> exact this
    · rw [h.outstanding]
      exact Nat.add_comm ..
  | retest t =>
    rw [hc] at hpop hunread
    obtain ⟨rfl, hseen⟩ := hpop
    by_cases he : s.ring.tail = s.ring.headCache
    · simp only [if_pos he]
      refine ⟨q, c0, p0, h.queue, h.at_, h.push, trivial, hunread, h.pushRefused, fun n hn => ?_⟩
      have hempty := h.at_.empty_iff.mp he
      rcases List.mem_append.mp hn with hn | hn
      · exact h.popRefused n hn
      · rw [List.mem_singleton] at hn
        omega
    · simp only [if_neg he]
      exact ⟨q, c0, p0, h.queue, h.at_, h.push, ⟨rfl, h.at_.has_value he⟩, hunread, h.pushRefused, h.popRefused⟩
  | read t =>
    rw [hc] at hpop hunread
    obtain ⟨rfl, hlt⟩ := hpop
    obtain ⟨v, q', hq, hv⟩ := h.at_.oldest hlt
    refine ⟨q, c0, p0, h.queue, h.at_, ?_, ⟨rfl, hlt, by rw [hq, hv]; rfl⟩, fun i => ?_, h.pushRefused, h.popRefused⟩
    · have := h.push
      cases hp : s.producer <;> rw [hp] at this <;> exact this
    · -- the value read is the first of the window, and no other is in its slot
      show Function.update s.unread s.ring.tail false i = true ↔ ∃ k, s.popped.length + 1 ≤ k ∧ _ ∧ k % s.ring.capacity = i
      rw [window_tail h.ahead_fits, ← h.at_.tail]
      by_cases e : s.ring.tail = i
      · rw [e, Function.update_self]
        exact iff_of_false Bool.false_ne_true fun h => h.1 rfl
      · rw [Function.update_of_ne (Ne.symm e), and_iff_right e]
        exact hunread i
  | store t out =>
    rw [hc] at hpop hunread
    obtain ⟨rfl, hlt, hout⟩ := hpop
    obtain ⟨v, q', rfl, hv⟩ := h.at_.oldest hlt
    obtain rfl : v = out := Option.some.inj hout
    have hlen : (s.popped ++ [v]).length = s.popped.length + 1 := List.length_append
    have hend : (s.popped ++ [v]).length + q'.length = s.popped.length + (v :: q').length := by
      rw [hlen, List.length_cons]
      omega
    refine ⟨q', c0, p0, ?_, ?_, ?_, trivial, fun i => ?_, h.pushRefused, h.popRefused⟩
    · show s.pushed = s.popped ++ [v] ++ q'
      rw [h.queue, List.append_assoc]
      rfl
    · show At _ (s.popped ++ [v]).length q' c0 p0
      rw [hlen]
      exact h.at_.consume hlt
    · show PushOk _ ((s.popped ++ [v]).length + q'.length) c0 s.pushSeen s.producer
      rw [hend]
      have := h.push
      cases hp : s.producer <;> rw [hp] at this <;> exact this
    · show s.unread i = true ↔ ∃ k, (s.popped ++ [v]).length + 0 ≤ k ∧ k < (s.popped ++ [v]).length + q'.length + _ ∧ _
      rw [hend, hlen]
      exact hunread i

/-! ## Schedules -/

theorem Inv.move (hs : Inv s) (mv : Move T) : Inv (s.move mv) := by
  cases mv with
  | producer v => exact hs.produce v
  | consumer => exact hs.consume

theorem Inv.run (hs : Inv s) (moves : List (Move T)) : Inv (s.run moves) := by
  induction moves generalizing s with
  | nil => exact hs
  | cons mv moves ih => exact ih (hs.move mv)

end Lob.SpscRing
