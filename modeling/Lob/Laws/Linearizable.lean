/-
  Lob.Laws.Linearizable — the ring is an atomic bounded queue.

  The atomic steps of `try_push` and `try_pop`, in any interleaving, show a history of calls
  and returns. Each call takes effect at one of its own steps: a push that succeeds at the
  store of the head, one that is refused at its reload of the tail, a pop that succeeds at
  the store of the tail, one that finds nothing at its reload of the head.

  - `ring_linearizable`: every history of every schedule is one of the queue of
    `capacity - 1` places whose calls happen at once.
  - `calls_suffice`: a producer and a consumer that decide what to do next from what their
    calls returned end, on every schedule, where some order of uninterrupted `try_push` and
    `try_pop` calls takes them. It is about one ring and its two threads; that the server's
    threads make their calls on the three rings uninterrupted is how `Lob.Server.Pipeline`
    is stated.
-/

import Lob.Base.Linearize
import Lob.Ring.Interleaving

namespace Lob.SpscRing

open Lob.Base.Linearize

variable {T : Type}

inductive Side where
  | producer
  | consumer
  deriving DecidableEq

inductive Call (T : Type) where
  | push (v : T)
  | pop

inductive Answer (T : Type) where
  | pushed (ok : Bool)
  | popped (out : Option T)

/-- What the ring is for: a queue with room for `capacity - 1` values. -/
def queue (capacity : Nat) : Object (List T) (Call T) (Answer T)
  | q, .push v => if q.length + 1 = capacity then (q, .pushed false) else (q ++ [v], .pushed true)
  | q, .pop => (q.tail, .popped q.head?)

/-- The call a move makes or the return it is. -/
def Sys.shows (s : Sys T) : Move T → Option (Event Side (Call T) (Answer T))
  | .producer v =>
    match s.producer with
    | .idle => some (.call .producer (.push v))
    | .retest _ h => if s.ring.next h = s.ring.tailCache then some (.ret .producer (.pushed false)) else none
    | .store _ _ => some (.ret .producer (.pushed true))
    | _ => none
  | .consumer =>
    match s.consumer with
    | .idle => some (.call .consumer .pop)
    | .retest t => if t = s.ring.headCache then some (.ret .consumer (.popped none)) else none
    | .store _ out => some (.ret .consumer (.popped (some out)))
    | _ => none

theorem Sys.shows_producer (s : Sys T) (v : T) :
    s.shows (.producer v) = none ∨ s.shows (.producer v) = some (.call .producer (.push v)) ∨
      ∃ ok, s.shows (.producer v) = some (.ret .producer (.pushed ok)) := by
  unfold Sys.shows
  cases s.producer with
  | idle => exact .inr (.inl rfl)
  | retest w h =>
    by_cases hf : s.ring.next h = s.ring.tailCache
    · exact .inr (.inr ⟨false, if_pos hf⟩)
    · exact .inl (if_neg hf)
  | store w h => exact .inr (.inr ⟨true, rfl⟩)
  | _ => exact .inl rfl

theorem Sys.shows_consumer (s : Sys T) :
    s.shows .consumer = none ∨ s.shows .consumer = some (.call .consumer .pop) ∨
      ∃ out, s.shows .consumer = some (.ret .consumer (.popped out)) := by
  unfold Sys.shows
  cases s.consumer with
  | idle => exact .inr (.inl rfl)
  | retest t =>
    by_cases he : t = s.ring.headCache
    · exact .inr (.inr ⟨none, if_pos he⟩)
    · exact .inl (if_neg he)
  | store t out => exact .inr (.inr ⟨some out, rfl⟩)
  | _ => exact .inl rfl

/-! ## The atomic queue behind a state -/

/-- A refused push has had its point once it has reloaded the tail. -/
def PushPc.phase (r : SpscRing T) : PushPc T → Phase (Call T) (Answer T)
  | .idle => .idle
  | .retest v h => if r.next h = r.tailCache then .done (.push v) (.pushed false) else .called (.push v)
  | .test v _ | .reload v _ | .write v _ | .store v _ => .called (.push v)

def PopPc.phase (r : SpscRing T) : PopPc T → Phase (Call T) (Answer T)
  | .idle => .idle
  | .retest t => if t = r.headCache then .done .pop (.popped none) else .called .pop
  | .test _ | .reload _ | .read _ | .store _ _ => .called .pop

namespace Sys

/-- The values pushed and not popped. -/
def queue (s : Sys T) : List T := s.pushed.drop s.popped.length

def phase (s : Sys T) : Side → Phase (Call T) (Answer T)
  | .producer => s.producer.phase s.ring
  | .consumer => s.consumer.phase s.ring

def atomic (s : Sys T) : Atomic Side (List T) (Call T) (Answer T) := ⟨s.queue, s.phase⟩

variable {s s' : Sys T}

theorem queue_eq {q : List T} {c0 p0 : Nat} (h : Around s q c0 p0) : s.queue = q := by
  rw [queue, h.queue, List.drop_left]

theorem move_capacity (m : Move T) : (s.move m).ring.capacity = s.ring.capacity := by
  cases m with
  | producer v =>
    show (s.produce v).ring.capacity = _
    unfold Sys.produce
    split
    all_goals first | rfl | (split <;> rfl)
  | consumer =>
    show s.consume.ring.capacity = _
    unfold Sys.consume
    split
    all_goals first | rfl | (split <;> rfl)

/-- What a move of the producer leaves of the atomic queue's phases. -/
theorem phase_produce (v : T) : (s.produce v).phase = Function.update s.phase .producer ((s.produce v).phase .producer) := by
  funext side
  cases side with
  | producer => rw [Function.update_self]
  | consumer =>
    rw [Function.update_of_ne Side.noConfusion]
    unfold Sys.produce
    split
    all_goals first | rfl | (split <;> rfl)

theorem phase_consume : s.consume.phase = Function.update s.phase .consumer (s.consume.phase .consumer) := by
  funext side
  cases side with
  | producer =>
    rw [Function.update_of_ne Side.noConfusion]
    unfold Sys.consume
    split
    all_goals first | rfl | (split <;> rfl)
  | consumer => rw [Function.update_self]

end Sys

/-! ## One move -/

variable {s : Sys T} {q : List T} {c0 p0 cap : Nat}

theorem Around.produce_atomic (h : Around s q c0 p0) (hcap : s.ring.capacity = cap) (v : T) :
    Runs (SpscRing.queue cap) s.atomic (s.shows (.producer v)).toList (s.produce v).atomic := by
  have hqueue : s.queue = q := Sys.queue_eq h
  have hpush := h.push
  have hpast := h.at_.tailPast
  have hto : (s.produce v).atomic =
      ⟨(s.produce v).queue, Function.update s.phase .producer ((s.produce v).phase .producer)⟩ :=
    congrArg _ (Sys.phase_produce v)
  rw [hto]
  unfold Sys.shows
  cases hp : s.producer with
  | idle =>
    have hphase : s.phase .producer = .idle := by rw [Sys.phase, hp]; rfl
    simp only [Sys.produce, hp]
    exact .one (.call _ hphase)
  | test w i =>
    have hphase : s.phase .producer = .called (.push w) := by rw [Sys.phase, hp]; rfl
    simp only [Sys.produce, hp]
    by_cases hf : s.ring.next i = s.ring.tailCache
    · simp only [if_pos hf]
      exact .stay hphase
    · simp only [if_neg hf]
      exact .stay hphase
  | reload w i =>
    have hphase : s.phase .producer = .called (.push w) := by rw [Sys.phase, hp]; rfl
    rw [hp] at hpush
    obtain rfl : i = s.ring.head := hpush
    simp only [Sys.produce, hp]
    show Runs _ _ [] ⟨s.queue, Function.update s.phase .producer
      (if s.ring.next s.ring.head = s.ring.tail then .done (.push w) (.pushed false) else .called (.push w))⟩
    by_cases hf : s.ring.next s.ring.head = s.ring.tail
    · -- refused: the queue is full now, whatever it is at the second test
      have hfull : SpscRing.queue cap s.queue (.push w) = (s.queue, .pushed false) := by
        have := h.at_.reloadTail.full_iff.mp hf
        rw [Nat.add_assoc] at this
        have hlen : q.length + 1 = cap := (Nat.add_left_cancel this).trans hcap
        rw [hqueue]
        exact if_pos hlen
      have hpoint := Runs.one (Step.point (O := SpscRing.queue cap) (show s.atomic.phase .producer = _ from hphase))
      rw [if_pos hf]
      simp only [Sys.atomic, hfull] at hpoint
      exact hpoint
    · rw [if_neg hf]
      exact .stay hphase
  | retest w i =>
    by_cases hf : s.ring.next i = s.ring.tailCache
    · have hphase : s.phase .producer = .done (.push w) (.pushed false) := by
        rw [Sys.phase, hp]
        exact if_pos hf
      simp only [Sys.produce, hp, if_pos hf]
      exact .one (.ret hphase)
    · have hphase : s.phase .producer = .called (.push w) := by
        rw [Sys.phase, hp]
        exact if_neg hf
      simp only [Sys.produce, hp, if_neg hf]
      exact .stay hphase
  | write w i =>
    have hphase : s.phase .producer = .called (.push w) := by rw [Sys.phase, hp]; rfl
    simp only [Sys.produce, hp]
    exact .stay hphase
  | store w i =>
    have hphase : s.phase .producer = .called (.push w) := by rw [Sys.phase, hp]; rfl
    rw [hp] at hpush
    obtain ⟨_, hroom, _⟩ := hpush
    have hput : SpscRing.queue cap s.queue (.push w) = (s.queue ++ [w], .pushed true) := by
      have hlen : ¬ q.length + 1 = cap := by omega
      rw [hqueue]
      exact if_neg hlen
    have hend : (s.pushed ++ [w]).drop s.popped.length = s.queue ++ [w] := by
      rw [hqueue, h.queue, List.append_assoc, List.drop_left]
    have hret := Runs.point_ret (O := SpscRing.queue cap) (show s.atomic.phase .producer = _ from hphase)
    simp only [Sys.atomic, hput] at hret
    simp only [Sys.produce, hp]
    show Runs _ _ _ ⟨(s.pushed ++ [w]).drop s.popped.length, _⟩
    rw [hend]
    exact hret

theorem Around.consume_atomic (h : Around s q c0 p0) :
    Runs (SpscRing.queue cap) s.atomic (s.shows .consumer).toList s.consume.atomic := by
  have hqueue : s.queue = q := Sys.queue_eq h
  have hpop := h.pop
  have hto : s.consume.atomic = ⟨s.consume.queue, Function.update s.phase .consumer (s.consume.phase .consumer)⟩ :=
    congrArg _ Sys.phase_consume
  rw [hto]
  unfold Sys.shows
  cases hc : s.consumer with
  | idle =>
    have hphase : s.phase .consumer = .idle := by rw [Sys.phase, hc]; rfl
    simp only [Sys.consume, hc]
    exact .one (.call _ hphase)
  | test t =>
    have hphase : s.phase .consumer = .called .pop := by rw [Sys.phase, hc]; rfl
    simp only [Sys.consume, hc]
    by_cases he : t = s.ring.headCache
    · simp only [if_pos he]
      exact .stay hphase
    · simp only [if_neg he]
      exact .stay hphase
  | reload t =>
    have hphase : s.phase .consumer = .called .pop := by rw [Sys.phase, hc]; rfl
    rw [hc] at hpop
    obtain rfl : t = s.ring.tail := hpop
    simp only [Sys.consume, hc]
    show Runs _ _ [] ⟨s.queue, Function.update s.phase .consumer
      (if s.ring.tail = s.ring.head then .done .pop (.popped none) else .called .pop)⟩
    by_cases he : s.ring.tail = s.ring.head
    · have hnil : SpscRing.queue cap s.queue .pop = (s.queue, .popped none) := by
        have := h.at_.reloadHead.empty_iff.mp he
        obtain rfl : q = [] := List.eq_nil_of_length_eq_zero (Nat.add_left_cancel this)
        rw [hqueue]
        rfl
      have hpoint := Runs.one (Step.point (O := SpscRing.queue cap) (show s.atomic.phase .consumer = _ from hphase))
      rw [if_pos he]
      simp only [Sys.atomic, hnil] at hpoint
      exact hpoint
    · rw [if_neg he]
      exact .stay hphase
  | retest t =>
    by_cases he : t = s.ring.headCache
    · have hphase : s.phase .consumer = .done .pop (.popped none) := by
        rw [Sys.phase, hc]
        exact if_pos he
      simp only [Sys.consume, hc, if_pos he]
      exact .one (.ret hphase)
    · have hphase : s.phase .consumer = .called .pop := by
        rw [Sys.phase, hc]
        exact if_neg he
      simp only [Sys.consume, hc, if_neg he]
      exact .stay hphase
  | read t =>
    have hphase : s.phase .consumer = .called .pop := by rw [Sys.phase, hc]; rfl
    simp only [Sys.consume, hc]
    exact .stay hphase
  | store t out =>
    have hphase : s.phase .consumer = .called .pop := by rw [Sys.phase, hc]; rfl
    rw [hc] at hpop
    obtain ⟨_, _, hout⟩ := hpop
    have htake : SpscRing.queue cap s.queue .pop = (s.queue.tail, .popped (some out)) := by
      rw [hqueue, ← hout]
      rfl
    have hend : s.pushed.drop (s.popped ++ [out]).length = s.queue.tail := by
      rw [Sys.queue, List.tail_drop, List.length_append, List.length_singleton]
    have hret := Runs.point_ret (O := SpscRing.queue cap) (show s.atomic.phase .consumer = _ from hphase)
    simp only [Sys.atomic, htake] at hret
    simp only [Sys.consume, hc]
    show Runs _ _ _ ⟨s.pushed.drop (s.popped ++ [out]).length, _⟩
    rw [hend]
    exact hret

/-- The atomic queue follows every move. -/
theorem Inv.move_atomic (hs : Inv s) (hcap : s.ring.capacity = cap) (m : Move T) :
    Runs (SpscRing.queue cap) s.atomic (s.shows m).toList (s.move m).atomic := by
  obtain ⟨q, c0, p0, h⟩ := hs
  cases m with
  | producer v => exact h.produce_atomic hcap v
  | consumer => exact h.consume_atomic

/-! ## Schedules -/

/-- What the threads are seen to call and return on a schedule. -/
def Sys.history (s : Sys T) (moves : List (Move T)) : List (Event Side (Call T) (Answer T)) :=
  Base.Linearize.history Sys.move Sys.shows s moves

theorem Inv.run_atomic (hs : Inv s) (moves : List (Move T)) :
    Runs (SpscRing.queue s.ring.capacity) s.atomic (s.history moves) (s.run moves).atomic := by
  have hstep : ∀ (x : Sys T) m, Inv x ∧ x.ring.capacity = s.ring.capacity →
      (Inv (x.move m) ∧ (x.move m).ring.capacity = s.ring.capacity) ∧
        Runs (SpscRing.queue s.ring.capacity) x.atomic (x.shows m).toList (x.move m).atomic :=
    fun x m hx => ⟨⟨hx.1.move m, (Sys.move_capacity m).trans hx.2⟩, hx.1.move_atomic hx.2 m⟩
  exact (simulates_run hstep ⟨hs, rfl⟩ moves).2

theorem start_atomic [Inhabited T] (minCapacity : Nat) : (start minCapacity : Sys T).atomic = .init [] := by
  refine congrArg _ (funext fun side => ?_)
  cases side <;> rfl

/-- On any interleaving the calls return what they return on a queue of `capacity - 1` places,
    each taking effect at once between its call and its return. -/
theorem ring_linearizable [Inhabited T] (minCapacity : Nat) (moves : List (Move T)) :
    Linearizable (SpscRing.queue (make minCapacity : SpscRing T).capacity) []
      ((start minCapacity : Sys T).history moves) := by
  have hrun := (start_inv (T := T) minCapacity).run_atomic moves
  rw [start_atomic] at hrun
  exact ⟨_, hrun⟩

/-! ## Two threads that use it -/

/-- What a producer pushes next, and what the answers do to the two threads. -/
structure Clients (T P C : Type) where
  value : P → T
  told : P → Bool → P
  got : C → Option T → C

/-- The two threads, between the atomic steps of their calls. -/
structure Duo (T P C : Type) where
  sys : Sys T
  p : P
  c : C

/-- The two threads, between calls. -/
structure Turns (T P C : Type) where
  ring : SpscRing T
  p : P
  c : C

variable {P C : Type} (k : Clients T P C)

namespace Clients

def move (s : Duo T P C) : Side → Move T
  | .producer => .producer (k.value s.p)
  | .consumer => .consumer

/-- One atomic step of a thread; a return resumes it. -/
def step (s : Duo T P C) (side : Side) : Duo T P C where
  sys := s.sys.move (k.move s side)
  p := match s.sys.shows (k.move s side) with
    | some (.ret .producer (.pushed ok)) => k.told s.p ok
    | _ => s.p
  c := match s.sys.shows (k.move s side) with
    | some (.ret .consumer (.popped out)) => k.got s.c out
    | _ => s.c

def run (s : Duo T P C) (sides : List Side) : Duo T P C := sides.foldl k.step s

/-- One whole call of a thread. -/
def turn (s : Turns T P C) : Side → Turns T P C
  | .producer => ⟨(s.ring.tryPush (k.value s.p)).1, k.told s.p (s.ring.tryPush (k.value s.p)).2, s.c⟩
  | .consumer => ⟨s.ring.tryPop.1, s.p, k.got s.c s.ring.tryPop.2⟩

def turns (s : Turns T P C) (sides : List Side) : Turns T P C := sides.foldl k.turn s

/-! ### As programs over the queue -/

abbrev Local (P C : Type) : Side → Type
  | .producer => P
  | .consumer => C

def locals (p : P) (c : C) : ∀ side, Local P C side
  | .producer => p
  | .consumer => c

def program : Program (Local P C) (Call T) (Answer T) where
  next
    | .producer, p => .push (k.value p)
    | .consumer, _ => .pop
  resume
    | .producer, p, .pushed ok => k.told p ok
    | .producer, p, .popped _ => p
    | .consumer, c, .popped out => k.got c out
    | .consumer, c, .pushed _ => c

/-- The moves the threads make on a schedule. -/
def moves : Duo T P C → List Side → List (Move T)
  | _, [] => []
  | s, side :: sides => k.move s side :: moves (k.step s side) sides

variable {k}

theorem run_sys (s : Duo T P C) (sides : List Side) : (k.run s sides).sys = s.sys.run (k.moves s sides) := by
  induction sides generalizing s with
  | nil => rfl
  | cons side sides ih => exact ih (k.step s side)

theorem locals_producer (p p' : P) (c : C) : Function.update (locals p c) .producer p' = locals p' c := by
  funext side
  cases side <;> rfl

theorem locals_consumer (p : P) (c c' : C) : Function.update (locals p c) .consumer c' = locals p c' := by
  funext side
  cases side <;> rfl

/-- A step calls what its program does next, and its return resumes it. -/
theorem step_follows (s : Duo T P C) (side : Side) {h : List (Event Side (Call T) (Answer T))}
    (hf : k.program.Follows (locals (k.step s side).p (k.step s side).c) h) :
    k.program.Follows (locals s.p s.c) ((s.sys.shows (k.move s side)).toList ++ h) ∧
      (s.sys.shows (k.move s side)).toList.foldl k.program.resumed (locals s.p s.c) =
        locals (k.step s side).p (k.step s side).c := by
  cases side with
  | producer =>
    rcases Sys.shows_producer s.sys (k.value s.p) with hs | hs | ⟨ok, hs⟩
    · simp only [step, move, hs] at hf ⊢
      exact ⟨hf, rfl⟩
    · simp only [step, move, hs] at hf ⊢
      refine ⟨Program.follows_cons.mpr ⟨fun t op he => ?_, hf⟩, rfl⟩
      injection he with ht hop
      subst ht hop
      rfl
    · simp only [step, move, hs] at hf ⊢
      have hres : k.program.resumed (locals s.p s.c) (.ret .producer (.pushed ok)) = locals (k.told s.p ok) s.c :=
        locals_producer ..
      exact ⟨Program.follows_cons.mpr ⟨fun t op he => (nomatch he), hres ▸ hf⟩, hres⟩
  | consumer =>
    rcases Sys.shows_consumer s.sys with hs | hs | ⟨out, hs⟩
    · simp only [step, move, hs] at hf ⊢
      exact ⟨hf, rfl⟩
    · simp only [step, move, hs] at hf ⊢
      refine ⟨Program.follows_cons.mpr ⟨fun t op he => ?_, hf⟩, rfl⟩
      injection he with ht hop
      subst ht hop
      rfl
    · simp only [step, move, hs] at hf ⊢
      have hres : k.program.resumed (locals s.p s.c) (.ret .consumer (.popped out)) = locals s.p (k.got s.c out) :=
        locals_consumer ..
      exact ⟨Program.follows_cons.mpr ⟨fun t op he => (nomatch he), hres ▸ hf⟩, hres⟩

theorem run_follows (s : Duo T P C) (sides : List Side) :
    k.program.Follows (locals s.p s.c) (s.sys.history (k.moves s sides)) ∧
      k.program.after (locals s.p s.c) (s.sys.history (k.moves s sides)) = locals (k.run s sides).p (k.run s sides).c := by
  induction sides generalizing s with
  | nil => exact ⟨Program.follows_nil, rfl⟩
  | cons side sides ih =>
    obtain ⟨hf, hafter⟩ := ih (k.step s side)
    obtain ⟨hf', hstep⟩ := step_follows s side hf
    refine ⟨hf', ?_⟩
    show List.foldl _ _ ((s.sys.shows (k.move s side)).toList ++ _) = _
    rw [List.foldl_append, hstep]
    exact hafter

/-- The ring holds the queue, and the threads stand where the programs do. -/
structure Matches (cap : Nat) (s : Turns T P C) (z : List T × ∀ side, Local P C side) : Prop where
  holds : Holds s.ring z.1
  capacity : s.ring.capacity = cap
  stand : z.2 = locals s.p s.c

/-- A whole call on the ring is an operation of the queue. -/
theorem Matches.turn {cap : Nat} {s : Turns T P C} {z : List T × ∀ side, Local P C side} (h : Matches cap s z)
    (side : Side) : Matches cap (k.turn s side) (k.program.turn (SpscRing.queue cap) z side) := by
  obtain ⟨q, l⟩ := z
  obtain ⟨hq, hcap, hl⟩ := h
  dsimp only at hq hl
  subst hl
  cases side with
  | producer =>
    obtain ⟨hc, hpush⟩ := tryPush_spec hq (k.value s.p)
    rw [hcap] at hpush
    show Matches cap _ ((SpscRing.queue cap q (.push (k.value s.p))).1,
      Function.update (locals s.p s.c) .producer _)
    by_cases hfull : q.length + 1 = cap
    · have hop : SpscRing.queue cap q (.push (k.value s.p)) = (q, .pushed false) := if_pos hfull
      rw [if_pos hfull] at hpush
      refine ⟨?_, hc.trans hcap, ?_⟩
      · rw [hop]
        exact hpush.2
      · show Function.update _ _ (k.program.resume .producer s.p (SpscRing.queue cap q (.push (k.value s.p))).2) = _
        rw [hop, locals_producer, Clients.turn, hpush.1]
        rfl
    · have hop : SpscRing.queue cap q (.push (k.value s.p)) = (q ++ [k.value s.p], .pushed true) := if_neg hfull
      rw [if_neg hfull] at hpush
      refine ⟨?_, hc.trans hcap, ?_⟩
      · rw [hop]
        exact hpush.2
      · show Function.update _ _ (k.program.resume .producer s.p (SpscRing.queue cap q (.push (k.value s.p))).2) = _
        rw [hop, locals_producer, Clients.turn, hpush.1]
        rfl
  | consumer =>
    obtain ⟨hc, hout, hpop⟩ := tryPop_spec hq
    refine ⟨hpop, hc.trans hcap, ?_⟩
    show Function.update (locals s.p s.c) .consumer (k.got s.c q.head?) = _
    rw [locals_consumer, Clients.turn, hout]

theorem Matches.turns {cap : Nat} {s : Turns T P C} {z : List T × ∀ side, Local P C side} (h : Matches cap s z)
    (sides : List Side) : Matches cap (k.turns s sides) (k.program.turns (SpscRing.queue cap) z sides) := by
  induction sides generalizing s z with
  | nil => exact h
  | cons side sides ih => exact ih (h.turn side)

end Clients

/-- On every schedule of the atomic steps the two threads get, and leave in the ring, what
    they do with their calls uninterrupted in some order. -/
theorem calls_suffice [Inhabited T] (k : Clients T P C) (minCapacity : Nat) (p : P) (c : C) (sides : List Side) :
    ∃ order, let s := k.run ⟨start minCapacity, p, c⟩ sides
      let z := k.turns ⟨make minCapacity, p, c⟩ order
      z.ring.contents = s.sys.ring.contents ∧ (s.sys.producer = .idle → z.p = s.p) ∧ (s.sys.consumer = .idle → z.c = s.c) := by
  set s := k.run ⟨start minCapacity, p, c⟩ sides
  have hinv := start_inv (T := T) minCapacity
  have hsys : s.sys = (start minCapacity : Sys T).run (k.moves ⟨start minCapacity, p, c⟩ sides) :=
    Clients.run_sys ⟨start minCapacity, p, c⟩ sides
  have hrun := hinv.run_atomic (k.moves ⟨start minCapacity, p, c⟩ sides)
  obtain ⟨hf, hafter⟩ := Clients.run_follows (k := k) ⟨start minCapacity, p, c⟩ sides
  rw [start_atomic, ← hsys] at hrun
  obtain ⟨order, hobj, heach⟩ := Program.turns_of_runs hrun hf
  rw [hafter] at heach
  have hmatch := (Clients.Matches.mk (make_holds minCapacity) rfl rfl :
    Clients.Matches (make minCapacity : SpscRing T).capacity ⟨make minCapacity, p, c⟩ ([], Clients.locals p c)).turns
    (k := k) order
  have hstand : ∀ side, k.program.Stands side (Clients.locals s.p s.c side)
      (Clients.locals (k.turns ⟨make minCapacity, p, c⟩ order).p (k.turns ⟨make minCapacity, p, c⟩ order).c side)
      (s.sys.phase side) := by
    rw [← hmatch.stand]
    exact heach
  refine ⟨order, ?_, fun hidle => ?_, fun hidle => ?_⟩
  · obtain ⟨q, c0, p0, h⟩ : Inv s.sys := by
      rw [hsys]
      exact hinv.run _
    rw [contents_eq hmatch.holds, contents_eq ⟨_, c0, p0, h.at_⟩, ← Sys.queue_eq h]
    exact hobj
  · have := hstand .producer
    rw [Sys.phase, hidle] at this
    exact this
  · have := hstand .consumer
    rw [Sys.phase, hidle] at this
    exact this

end Lob.SpscRing
