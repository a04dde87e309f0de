/-
  Lob.Laws.Fifo — the ring is a bounded queue under any interleaving of its two threads.

  `ring_fifo`: whatever the schedule, the values popped are a prefix of the values pushed,
  no slot is overwritten before its value is read or read before it is written, one slot
  stays unused, and a call is refused only on a ring that was full (empty) when it looked.
  `push_alone` and `pop_alone`: a call that nothing interrupts is `tryPush`, `tryPop`.
-/

import Lob.Ring.Interleaving

namespace Lob.SpscRing

variable {T : Type}

/-! ## Uninterrupted calls -/

section
variable {s : Sys T} {v : T}

theorem produce_write (w : T) (h : s.producer = .write v s.ring.head) : (s.produce w).produce w =
    { s with ring := s.ring.store v, producer := .idle, pushed := s.pushed ++ [v],
             unread := Function.update s.unread s.ring.head true } := by
  have h1 : s.produce w =
      { s with ring := { s.ring with buf := Function.update s.ring.buf s.ring.head v },
               producer := .store v s.ring.head, unread := Function.update s.unread s.ring.head true } := by
    rw [Sys.produce, h]
  rw [h1]
  rfl

/-- A push that nothing interrupts. -/
theorem push_alone (h : s.producer = .idle) : ∃ n, ∃ s', s.run (List.replicate n (.producer v)) = s' ∧
    s'.producer = .idle ∧ s'.ring = (s.ring.tryPush v).1 ∧
    s'.pushed = if (s.ring.tryPush v).2 then s.pushed ++ [v] else s.pushed := by
  have h1 : s.produce v = { s with producer := .test v s.ring.head } := by rw [Sys.produce, h]
  have h2 : (s.produce v).produce v =
      { s with
        producer := if s.ring.next s.ring.head = s.ring.tailCache then .reload v s.ring.head
          else .write v s.ring.head } := by
    rw [h1]
    rfl
  unfold tryPush
  by_cases hf : s.ring.next s.ring.head = s.ring.tailCache
  · rw [if_pos hf] at h2 ⊢
    have h4 : (((s.produce v).produce v).produce v).produce v =
        if s.ring.next s.ring.head = s.ring.tail then
          { s with ring := { s.ring with tailCache := s.ring.tail }, producer := .idle, pushSeen := s.outstanding,
                   pushRefused := s.pushRefused ++ [s.outstanding] }
        else { s with ring := { s.ring with tailCache := s.ring.tail }, producer := .write v s.ring.head,
                      pushSeen := s.outstanding } := by
      rw [h2]
      rfl
    by_cases hf' : s.ring.next s.ring.head = s.ring.tail
    · rw [if_pos hf'] at h4
      refine ⟨4, _, h4, rfl, ?_⟩
      simp only
      rw [if_pos (show next { s.ring with tailCache := s.ring.tail } s.ring.head = s.ring.tail from hf')]
      exact ⟨rfl, rfl⟩
    · rw [if_neg hf'] at h4
      refine ⟨6, _, (congrArg (fun s => (Sys.produce s v).produce v) h4).trans (produce_write v rfl), rfl, ?_⟩
      simp only
      rw [if_neg (show ¬ next { s.ring with tailCache := s.ring.tail } s.ring.head = s.ring.tail from hf')]
      exact ⟨rfl, rfl⟩
  · rw [if_neg hf] at h2 ⊢
    exact ⟨4, _, (congrArg (fun s => (Sys.produce s v).produce v) h2).trans (produce_write v rfl), rfl, rfl, rfl⟩

theorem consume_read (h : s.consumer = .read s.ring.tail) : s.consume.consume =
    { s with ring := s.ring.take.1, consumer := .idle, popped := s.popped ++ [s.ring.buf s.ring.tail],
             unread := Function.update s.unread s.ring.tail false } := by
  have h1 : s.consume =
      { s with consumer := .store s.ring.tail (s.ring.buf s.ring.tail),
               unread := Function.update s.unread s.ring.tail false } := by
    rw [Sys.consume, h]
  rw [h1]
  rfl

/-- A pop that nothing interrupts. -/
theorem pop_alone (h : s.consumer = .idle) : ∃ n, ∃ s', s.run (List.replicate n .consumer) = s' ∧
    s'.consumer = .idle ∧ s'.ring = s.ring.tryPop.1 ∧ s'.popped = s.popped ++ s.ring.tryPop.2.toList := by
  have h1 : s.consume = { s with consumer := .test s.ring.tail } := by rw [Sys.consume, h]
  have h2 : s.consume.consume =
      { s with consumer := if s.ring.tail = s.ring.headCache then .reload s.ring.tail else .read s.ring.tail } := by
    rw [h1]
    rfl
  unfold tryPop
  by_cases he : s.ring.tail = s.ring.headCache
  · rw [if_pos he] at h2 ⊢
    have h4 : s.consume.consume.consume.consume =
        if s.ring.tail = s.ring.head then
          { s with ring := { s.ring with headCache := s.ring.head }, consumer := .idle, popSeen := s.outstanding,
                   popRefused := s.popRefused ++ [s.outstanding] }
        else { s with ring := { s.ring with headCache := s.ring.head }, consumer := .read s.ring.tail,
                      popSeen := s.outstanding } := by
      rw [h2]
      rfl
    by_cases he' : s.ring.tail = s.ring.head
    · rw [if_pos he'] at h4 ⊢
      exact ⟨4, _, h4, rfl, rfl, (List.append_nil _).symm⟩
    · rw [if_neg he'] at h4 ⊢
      exact ⟨6, _, (congrArg (fun s => (Sys.consume s).consume) h4).trans (consume_read rfl), rfl, rfl, rfl⟩
  · rw [if_neg he] at h2 ⊢
    exact ⟨4, _, (congrArg (fun s => (Sys.consume s).consume) h2).trans (consume_read rfl), rfl, rfl, rfl⟩

end

/-! ## Any schedule -/

theorem ring_fifo [Inhabited T] (minCapacity : Nat) (moves : List (Move T)) :
    ∃ s, (start minCapacity).run moves = s ∧ (∃ n, s.ring.capacity = 2 ^ n) ∧
      s.popped <+: s.pushed ∧
      (∀ v i, s.producer = .write v i → s.unread i = false) ∧ (∀ i, s.consumer = .read i → s.unread i = true) ∧
      s.outstanding ≤ s.ring.capacity - 1 ∧
      (∀ n ∈ s.pushRefused, n = s.ring.capacity - 1) ∧ ∀ n ∈ s.popRefused, n = 0 := by
  obtain ⟨q, c0, p0, h⟩ := (start_inv (T := T) minCapacity).run moves
  refine ⟨_, rfl, h.at_.pow, ⟨q, h.queue.symm⟩, fun v i hp => h.write_free hp, fun i hc => h.read_written hc, ?_,
    fun n hn => ?_, h.popRefused⟩
  · rw [h.outstanding]
    exact Nat.le_sub_one_of_lt h.at_.length_lt
  · have := h.pushRefused n hn
    omega

/-- A ring of two slots: the second push is refused while the first value is unread. -/
example : ((start 0 : Sys Nat).run (List.replicate 4 (.producer 7) ++ List.replicate 4 (.producer 8) ++
    List.replicate 6 .consumer)).popped = [7] := by decide

end Lob.SpscRing
