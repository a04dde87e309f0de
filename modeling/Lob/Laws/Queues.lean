/-
  Lob.Laws.Queues — the levels' intrusive queues are sequences.

  Any number of levels share the memory of the orders. A run is a sequence of `push_back`
  (of an order in no queue) and `unlink` (of a member, anywhere in its queue). What a level
  should hold is told by the calls alone: pushed orders at the end, unlinked ones taken out
  (`members`).

  After every such run (`queues_are_sequences`): walking `next` from `head` visits exactly
  the members and walking `prev` from `tail` the same list reversed, both ends at null;
  `count` and `total_qty` are its length and open quantity in their machine widths
  (`Lists`); an order unlinked and not pushed again has null links; and no call touches a
  level but its own, or an order of another level. On a book, new with empty levels
  (`make_queues`), `add` and `remove` make exactly these calls (`add_pushes`,
  `remove_unlinks`).
-/

import Lob.Book.OrderBookProofs

namespace Lob

open Lob.Base.Links

inductive QueueOp (ι : Type) where
  | pushBack (i : ι) (o : Ptr)
  | unlink (i : ι) (o : Ptr)

def QueueOp.level {ι : Type} : QueueOp ι → ι
  | .pushBack i _ => i
  | .unlink i _ => i

/-- Levels over one memory. -/
structure Levels (ι : Type) where
  level : ι → PriceLevel
  mem : Mem

/-- As constructed, at prices `px`; the memory holds anything. -/
def Levels.init {ι : Type} (px : ι → Price) (m : Mem) : Levels ι := ⟨fun i => { price := px i }, m⟩

variable {ι : Type} [DecidableEq ι]

def Levels.exec (s : Levels ι) : QueueOp ι → Levels ι
  | .pushBack i o => ⟨Function.update s.level i ((s.level i).pushBack s.mem o).1, ((s.level i).pushBack s.mem o).2⟩
  | .unlink i o => ⟨Function.update s.level i ((s.level i).unlink s.mem o).1, ((s.level i).unlink s.mem o).2⟩

def Levels.run (s : Levels ι) (ops : List (QueueOp ι)) : Levels ι := ops.foldl Levels.exec s

/-! ## What the calls say -/

namespace QueueOp

def step (q : ι → List Ptr) : QueueOp ι → ι → List Ptr
  | .pushBack i o => Function.update q i (q i ++ [o])
  | .unlink i o => Function.update q i ((q i).erase o)

/-- In push order, the orders of each level that were pushed and not unlinked since. -/
def members (ops : List (QueueOp ι)) : ι → List Ptr := ops.foldl step fun _ => []

/-- A pushed order is in no queue, an unlinked one is in the level's. -/
def Legal (q : ι → List Ptr) : QueueOp ι → Prop
  | .pushBack _ o => ∀ j, o ∉ q j
  | .unlink i o => o ∈ q i

/-- Every call is legal where it is made. -/
def Run (ops : List (QueueOp ι)) : Prop := ∀ before op, before ++ [op] <+: ops → Legal (members before) op

theorem members_concat (ops : List (QueueOp ι)) (op : QueueOp ι) : members (ops ++ [op]) = step (members ops) op := by
  unfold members
  rw [List.foldl_append]
  rfl

end QueueOp

open QueueOp

/-- A level lists `q`: both ways, null-terminated, with the right aggregates. -/
structure Lists (m : Mem) (l : PriceLevel) (q : List Ptr) : Prop where
  forward : ∀ n, q.length ≤ n → walk (fun p => (m p).next) n l.head = q
  backward : ∀ n, q.length ≤ n → walk (fun p => (m p).prev) n l.tail = q.reverse
  first : ∀ p, l.head = some p → (m p).prev = none
  last : ∀ p, l.tail = some p → (m p).next = none
  null : l.head = none ↔ l.tail = none
  count : l.count = UInt32.ofNat q.length
  total : l.totalQty = UInt64.ofNat (openQty m q)

variable {m : Mem} {l : PriceLevel} {q : List Ptr}

theorem Queue.lists (h : Queue m l q) : Lists m l q where
  forward := by
    intro n hn
    rw [h.head]
    exact h.links.walk_eq hn
  backward := by
    intro n hn
    rw [h.tail, ← List.head?_reverse]
    exact h.links.reverse.walk_eq (by rw [List.length_reverse]; exact hn)
  first := by
    intro p hp
    rw [h.head] at hp
    obtain ⟨q, rfl⟩ := List.head?_eq_some_iff.mp hp
    exact h.links.1
  last := by
    intro p hp
    rw [h.tail] at hp
    obtain ⟨q, rfl⟩ := List.getLast?_eq_some_iff.mp hp
    exact (seg_append.mp h.links).2.2.1
  null := by rw [h.head, h.tail, List.head?_eq_none_iff, List.getLast?_eq_none_iff]
  count := h.count
  total := h.total

/-! ## One call -/

/-- Each level holds its queue, and no order is in two. -/
structure Levels.Holds (s : Levels ι) (q : ι → List Ptr) : Prop where
  queue : ∀ i, Queue s.mem (s.level i) (q i)
  apart : ∀ i j o, o ∈ q i → o ∈ q j → i = j

/-- An order outside all queues, with null links. -/
structure Levels.Loose (s : Levels ι) (q : ι → List Ptr) (o : Ptr) : Prop where
  out : ∀ i, o ∉ q i
  prev : (s.mem o).prev = none
  next : (s.mem o).next = none

variable {s : Levels ι} {qs : ι → List Ptr} {i j : ι} {o p : Ptr}

omit [DecidableEq ι] in
theorem Levels.init_holds (px : ι → Price) (m : Mem) : (Levels.init px m).Holds fun _ => [] where
  queue := fun i => queue_nil m (px i)
  apart := by
    intro i j o ho
    cases ho

/-- A call leaves every order alone that is not its own and not in its level's queue. -/
theorem Levels.Holds.frame (h : s.Holds qs) {op : QueueOp ι} (hl : Legal qs op) (hp : p ∉ qs op.level)
    (hpush : ∀ i, op ≠ .pushBack i p) : (s.exec op).mem p = s.mem p := by
  cases op with
  | pushBack i o =>
    refine (h.queue i).pushBack_frame ?_ hp
    intro hpo
    subst hpo
    exact hpush i rfl
  | unlink i o =>
    obtain ⟨xs, ys, hq⟩ := List.append_of_mem hl
    have hqueue := h.queue i
    rw [QueueOp.level, hq] at hp
    rw [hq] at hqueue
    exact hqueue.unlink_frame hp

theorem exec_level_of_ne {op : QueueOp ι} (h : j ≠ op.level) : (s.exec op).level j = s.level j := by
  cases op with
  | pushBack i o => exact Function.update_of_ne h _ _
  | unlink i o => exact Function.update_of_ne h _ _

theorem step_of_ne (op : QueueOp ι) (h : j ≠ op.level) : step qs op j = qs j := by
  cases op with
  | pushBack i o => exact Function.update_of_ne h _ _
  | unlink i o => exact Function.update_of_ne h _ _

/-- Only the order pushed is new to any queue. -/
theorem mem_step {op : QueueOp ι} (hp : p ∈ step qs op j) : p ∈ qs j ∨ op = .pushBack j p := by
  by_cases hj : j = op.level
  · subst hj
    cases op with
    | pushBack i o =>
      simp only [step, QueueOp.level, Function.update_self, List.mem_append, List.mem_singleton] at hp
      rcases hp with hin | rfl
      · exact Or.inl hin
      · exact Or.inr rfl
    | unlink i o =>
      simp only [step, QueueOp.level, Function.update_self] at hp
      exact Or.inl (List.mem_of_mem_erase hp)
  · rw [step_of_ne op hj] at hp
    exact Or.inl hp

/-- The call's own level. -/
theorem Levels.Holds.own (h : s.Holds qs) {op : QueueOp ι} (hl : Legal qs op) :
    Queue (s.exec op).mem ((s.exec op).level op.level) (QueueOp.step qs op op.level) := by
  cases op with
  | pushBack i o =>
    simp only [Levels.exec, QueueOp.step, QueueOp.level, Function.update_self]
    exact pushBack_queue (h.queue i) (hl i)
  | unlink i o =>
    obtain ⟨xs, ys, hq⟩ := List.append_of_mem hl
    have hqueue := h.queue i
    rw [hq] at hqueue
    obtain ⟨hox, -⟩ := hqueue.split_at
    have herase : (qs i).erase o = xs ++ ys := by
      rw [hq, List.erase_append_right _ hox, List.erase_cons_head]
    simp only [Levels.exec, QueueOp.step, QueueOp.level, Function.update_self, herase]
    exact unlink_queue hqueue

theorem Levels.Holds.step (h : s.Holds qs) {op : QueueOp ι} (hl : Legal qs op) :
    (s.exec op).Holds (QueueOp.step qs op) := by
  constructor
  · intro j
    by_cases hj : j = op.level
    · subst hj
      exact h.own hl
    · -- the queues of the other levels are as they were
      rw [exec_level_of_ne hj, step_of_ne op hj]
      refine (h.queue j).congr ?_
      intro p hp
      refine h.frame hl (fun hin => hj (h.apart j op.level p hp hin)) ?_
      intro i hop
      subst hop
      exact hl j hp
  · intro j k p hj hk
    rcases mem_step hj with hin | rfl
    · rcases mem_step hk with hin' | rfl
      · exact h.apart j k p hin hin'
      · exact absurd hin (hl j)
    · rcases mem_step hk with hin' | hop
      · exact absurd hin' (hl k)
      · cases hop
        rfl

/-- An unlinked order is in no queue, and its links are null. -/
theorem Levels.Holds.loosen (h : s.Holds qs) (ho : o ∈ qs i) :
    (s.exec (.unlink i o)).Loose (QueueOp.step qs (.unlink i o)) o := by
  have hlinks : ((s.exec (.unlink i o)).mem o).prev = none ∧ ((s.exec (.unlink i o)).mem o).next = none := by
    simp only [Levels.exec, PriceLevel.unlink, setNext_prev, setPrev_prev, setNext_next, if_true, and_self]
  refine ⟨?_, hlinks.1, hlinks.2⟩
  intro j
  by_cases hj : j = i
  · subst hj
    simp only [QueueOp.step, Function.update_self]
    exact (h.queue j).nodup.not_mem_erase
  · rw [step_of_ne (.unlink i o) hj]
    exact fun hin => hj (h.apart j i o hin ho)

/-- It stays so until it is pushed again. -/
theorem Levels.Loose.step (h : s.Holds qs) (ho : s.Loose qs o) {op : QueueOp ι} (hl : Legal qs op)
    (hpush : ∀ i, op ≠ .pushBack i o) : (s.exec op).Loose (QueueOp.step qs op) o := by
  have hsame := h.frame hl (ho.out op.level) hpush
  refine ⟨?_, by rw [hsame]; exact ho.prev, by rw [hsame]; exact ho.next⟩
  intro j hin
  rcases mem_step hin with hold | hop
  · exact ho.out j hold
  · exact hpush j hop

/-! ## Runs -/

omit [DecidableEq ι] in
theorem run_append [DecidableEq ι] (s : Levels ι) (xs ys : List (QueueOp ι)) : s.run (xs ++ ys) = (s.run xs).run ys :=
  List.foldl_append

theorem QueueOp.Run.before {ops rest : List (QueueOp ι)} (h : QueueOp.Run (ops ++ rest)) : QueueOp.Run ops := by
  intro before op hpre
  exact h before op (hpre.trans (List.prefix_append ops rest))

theorem QueueOp.Run.last {ops : List (QueueOp ι)} {op : QueueOp ι} (h : QueueOp.Run (ops ++ [op])) :
    Legal (members ops) op := h ops op (List.prefix_refl _)

theorem run_holds (px : ι → Price) (m : Mem) (ops : List (QueueOp ι)) (h : QueueOp.Run ops) :
    ((Levels.init px m).run ops).Holds (members ops) := by
  induction ops using List.reverseRecOn with
  | nil => exact Levels.init_holds px m
  | append_singleton ops op ih =>
    rw [run_append, members_concat]
    exact (ih h.before).step h.last

/-- An order unlinked in a run, and not pushed after, ends it with null links. -/
theorem run_loose (px : ι → Price) (m : Mem) (before : List (QueueOp ι)) (i : ι) (o : Ptr) (rest : List (QueueOp ι))
    (h : QueueOp.Run (before ++ .unlink i o :: rest)) (hpush : ∀ j, .pushBack j o ∉ rest) :
    ((Levels.init px m).run (before ++ .unlink i o :: rest)).Loose (members (before ++ .unlink i o :: rest)) o := by
  induction rest using List.reverseRecOn with
  | nil =>
    rw [run_append, members_concat]
    exact (run_holds px m before h.before).loosen h.last
  | append_singleton rest op ih =>
    rw [← List.cons_append, ← List.append_assoc] at h ⊢
    have hloose := ih h.before (fun j hin => hpush j (List.mem_append_left _ hin))
    rw [run_append, members_concat]
    refine hloose.step (run_holds px m _ h.before) h.last ?_
    intro j hop
    exact hpush j (by rw [hop]; exact List.mem_append_right _ (List.mem_singleton_self _))

/-- Every level lists its members after every run; an unlinked order is cleared, and a call
    touches no other level and none of its orders. -/
theorem queues_are_sequences (px : ι → Price) (m : Mem) (ops : List (QueueOp ι)) (h : QueueOp.Run ops) :
    (∀ i, Lists ((Levels.init px m).run ops).mem (((Levels.init px m).run ops).level i) (members ops i)) ∧
      (∀ before i o rest, ops = before ++ .unlink i o :: rest → (∀ j, .pushBack j o ∉ rest) →
        (((Levels.init px m).run ops).mem o).prev = none ∧ (((Levels.init px m).run ops).mem o).next = none) ∧
      ∀ before op, before ++ [op] <+: ops → ∀ j, j ≠ op.level →
        ((Levels.init px m).run (before ++ [op])).level j = ((Levels.init px m).run before).level j ∧
          ∀ p ∈ members before j, ((Levels.init px m).run (before ++ [op])).mem p = ((Levels.init px m).run before).mem p := by
  refine ⟨?_, ?_, ?_⟩
  · intro i
    exact ((run_holds px m ops h).queue i).lists
  · intro before i o rest hops hpush
    subst hops
    have hloose := run_loose px m before i o rest h hpush
    exact ⟨hloose.prev, hloose.next⟩
  · intro before op hpre j hj
    obtain ⟨rest, rfl⟩ := hpre
    have hlast := h.before
    have hholds := run_holds px m before hlast.before
    have hlegal := hlast.last
    rw [run_append]
    refine ⟨exec_level_of_ne hj, ?_⟩
    intro p hp
    refine hholds.frame hlegal (fun hin => hj (hholds.apart j op.level p hp hin)) ?_
    intro i hop
    subst hop
    exact hlegal j hp

/-! ## A run with a cancel in the middle of a queue -/

omit [DecidableEq ι] in
theorem QueueOp.Run.nil [DecidableEq ι] : QueueOp.Run ([] : List (QueueOp ι)) := by
  intro before op hpre
  have hlen := hpre.length_le
  rw [List.length_append, List.length_singleton, List.length_nil] at hlen
  omega

theorem QueueOp.Run.concat {ops : List (QueueOp ι)} {op : QueueOp ι} (h : QueueOp.Run ops) (hl : Legal (members ops) op) :
    QueueOp.Run (ops ++ [op]) := by
  intro before op' hpre
  rcases List.prefix_concat_iff.mp hpre with hall | hbefore
  · obtain ⟨rfl, hop⟩ := List.append_inj' hall rfl
    cases hop
    exact hl
  · exact h before op' hbefore

/-- Orders 7, 9, 2 on one level and 4 on another; 9 is unlinked from the middle, 4 moves. -/
theorem queues_are_sequences_middle :
    Lists
      ((Levels.init (fun _ : Bool => kNoPrice) fun _ => {}).run
        [.pushBack true 7, .pushBack false 4, .pushBack true 9, .pushBack true 2, .unlink true 9, .unlink false 4,
          .pushBack true 4]).mem
      (((Levels.init (fun _ : Bool => kNoPrice) fun _ => {}).run
        [.pushBack true 7, .pushBack false 4, .pushBack true 9, .pushBack true 2, .unlink true 9, .unlink false 4,
          .pushBack true 4]).level true) [7, 2, 4] := by
  have h1 : QueueOp.Run ([] ++ [.pushBack true 7]) := QueueOp.Run.nil.concat (by unfold Legal; decide)
  have h2 : QueueOp.Run (_ ++ [.pushBack false 4]) := h1.concat (by unfold Legal; decide)
  have h3 : QueueOp.Run (_ ++ [.pushBack true 9]) := h2.concat (by unfold Legal; decide)
  have h4 : QueueOp.Run (_ ++ [.pushBack true 2]) := h3.concat (by unfold Legal; decide)
  have h5 : QueueOp.Run (_ ++ [.unlink true 9]) := h4.concat (by unfold Legal; decide)
  have h6 : QueueOp.Run (_ ++ [.unlink false 4]) := h5.concat (by unfold Legal; decide)
  have h7 : QueueOp.Run (_ ++ [.pushBack true 4]) := h6.concat (by unfold Legal; decide)
  exact (queues_are_sequences (fun _ => kNoPrice) (fun _ => {}) _ h7).1 true

/-! ## The calls the book makes -/

namespace OrderBook

/-- The levels of a book, but for their prices: `add` and `remove` set one when a level fills
    or empties. -/
def queues (b : OrderBook) (m : Mem) : Levels (Side × Nat) := ⟨fun k => { b.levels k.1 k.2 with price := kNoPrice }, m⟩

variable {b b' : OrderBook} {m m' : Mem} {o : Ptr} {i : Nat}

/-- A new book's levels are as constructed. -/
theorem make_queues {lo hi : Price} (h : make lo hi = some b) (m : Mem) :
    b.queues m = Levels.init (fun _ => kNoPrice) m := by
  unfold make at h
  split at h
  · simp only [Option.some.injEq] at h
    subst h
    rfl
  · cases h

theorem pushBack_at (l : PriceLevel) (px : Price) (m : Mem) (o : Ptr) :
    { l with price := px }.pushBack m o = ({ (l.pushBack m o).1 with price := px }, (l.pushBack m o).2) := by
  unfold PriceLevel.pushBack
  cases l.tail <;> rfl

theorem unlink_at (l : PriceLevel) (px : Price) (m : Mem) (o : Ptr) :
    { l with price := px }.unlink m o = ({ (l.unlink m o).1 with price := px }, (l.unlink m o).2) := by
  unfold PriceLevel.unlink
  cases (m o).prev <;> simp only <;> split <;> rfl

theorem queues_pushBack (b : OrderBook) (m : Mem) (s : Side) (i : Nat) (o : Ptr) :
    (b.queues m).exec (.pushBack (s, i) o) =
      ⟨Function.update (b.queues m).level (s, i) { ((b.levels s i).pushBack m o).1 with price := kNoPrice },
        ((b.levels s i).pushBack m o).2⟩ := by
  unfold queues Levels.exec
  dsimp only
  rw [pushBack_at]

theorem queues_unlink (b : OrderBook) (m : Mem) (s : Side) (i : Nat) (o : Ptr) :
    (b.queues m).exec (.unlink (s, i) o) =
      ⟨Function.update (b.queues m).level (s, i) { ((b.levels s i).unlink m o).1 with price := kNoPrice },
        ((b.levels s i).unlink m o).2⟩ := by
  unfold queues Levels.exec
  dsimp only
  rw [unlink_at]

/-- Writing one level. -/
theorem queues_setAt {s : Side} {lvl : PriceLevel} (h : b'.levels = setAt b.levels s i lvl) (m m' : Mem) :
    b'.queues m' = ⟨Function.update (b.queues m).level (s, i) { lvl with price := kNoPrice }, m'⟩ := by
  unfold queues
  rw [h]
  congr 1
  funext k
  by_cases hk : k = (s, i)
  · subst hk
    simp only [setAt, Function.update_self, and_self, if_true]
  · have hne : ¬ (k.1 = s ∧ k.2 = i) := fun e => hk (Prod.ext e.1 e.2)
    rw [Function.update_of_ne hk]
    simp only [setAt, if_neg hne]

/-- `OrderBook::add` is one `push_back`, on the level of the order's side and price. -/
theorem add_pushes (hslot : b.slot (m o).price = some i) (h : b.add m o = some (b', m')) :
    b'.queues m' = (b.queues m).exec (.pushBack ((m o).side, i) o) := by
  unfold OrderBook.add at h
  simp only [hslot, Option.bind_eq_bind, Option.bind_some, Option.some.injEq, Prod.mk.injEq] at h
  obtain ⟨hb, hm⟩ := h
  have hlvl : ∀ px : Price, (if (b.levels (m o).side i).empty then { b.levels (m o).side i with price := px }
      else b.levels (m o).side i) = { b.levels (m o).side i with
        price := if (b.levels (m o).side i).empty then px else (b.levels (m o).side i).price } := by
    intro px
    split <;> rfl
  rw [hlvl, pushBack_at] at hb hm
  have hlevels : b'.levels = setAt b.levels (m o).side i
      { ((b.levels (m o).side i).pushBack m o).1 with
        price := if (b.levels (m o).side i).empty then (m o).price else (b.levels (m o).side i).price } := by
    rw [← hb]
    dsimp only
    split <;> rfl
  rw [queues_setAt hlevels m, queues_pushBack, ← hm]

/-- `OrderBook::remove` is one `unlink`. -/
theorem remove_unlinks (hslot : b.slot (m o).price = some i) (h : b.remove m o = some (b', m')) :
    b'.queues m' = (b.queues m).exec (.unlink ((m o).side, i) o) := by
  unfold OrderBook.remove at h
  simp only [hslot, Option.bind_eq_bind, Option.bind_some] at h
  have hlevels : m' = ((b.levels (m o).side i).unlink m o).2 ∧ ∃ px : Price, b'.levels = setAt b.levels (m o).side i
      { ((b.levels (m o).side i).unlink m o).1 with price := px } := by
    split at h
    · simp only [Option.some.injEq, Prod.mk.injEq] at h
      obtain ⟨hb, hm⟩ := h
      refine ⟨hm.symm, kNoPrice, ?_⟩
      rw [← hb, clearBit_levels]
    · simp only [Option.some.injEq, Prod.mk.injEq] at h
      obtain ⟨hb, hm⟩ := h
      exact ⟨hm.symm, _, by rw [← hb]⟩
  obtain ⟨hm, px, hlevels⟩ := hlevels
  rw [queues_setAt hlevels m, queues_unlink, hm]

end OrderBook

end Lob
