/-
  Lob.Ring.Channel — a ring with the history of what went through it.

  A producer that gives up on a value says so (`drop`), and whether a counter recorded it.
  `Sound`: the values taken, then those in the ring, are the values offered in order less
  the dropped ones. Pushing, giving up and popping keep it, on a ring of any capacity
  (`tryPush_cases`, `Sound.drop`, `tryPop_cases`).
-/

import Lob.Ring.SpscRing

namespace Lob

/-- What became of a value offered to a ring. -/
inductive Fate where
  | kept
  | dropped (counted : Bool)
  deriving DecidableEq, Repr

/-- Values offered to a ring and what became of each, oldest first. -/
abbrev Offers (T : Type) := List (T × Fate)

namespace Offers

variable {T : Type}

def kept (o : Offers T) : List T := o.filterMap fun x => if x.2 = .kept then some x.1 else none

def drops (o : Offers T) : Offers T := o.filter fun x => x.2 ≠ .kept

variable (o : Offers T) (v : T)

@[simp] theorem kept_kept : kept (o ++ [(v, .kept)]) = kept o ++ [v] := List.filterMap_append

@[simp] theorem kept_dropped (counted : Bool) : kept (o ++ [(v, .dropped counted)]) = kept o :=
  List.filterMap_append.trans (List.append_nil _)

@[simp] theorem drops_kept : drops (o ++ [(v, .kept)]) = drops o := (List.filter_append ..).trans (List.append_nil _)

@[simp] theorem drops_dropped (counted : Bool) :
    drops (o ++ [(v, .dropped counted)]) = drops o ++ [(v, .dropped counted)] := List.filter_append ..

/-- Those kept, in the order they were offered. -/
theorem kept_sublist : (kept o).Sublist (o.map Prod.fst) := by
  induction o with
  | nil => exact List.Sublist.refl _
  | cons x o ih =>
    obtain ⟨v, fate⟩ := x
    cases fate with
    | kept => exact ih.cons_cons v
    | dropped counted => exact ih.cons v

/-- With nothing dropped, nothing is missing. -/
theorem kept_eq {o : Offers T} (h : drops o = []) : kept o = o.map Prod.fst := by
  induction o with
  | nil => rfl
  | cons x o ih =>
    obtain ⟨v, fate⟩ := x
    cases fate with
    | kept => exact congrArg (v :: ·) (ih h)
    | dropped counted => cases h

end Offers

structure Channel (T : Type) where
  ring : SpscRing T
  offered : Offers T := []
  taken : List T := []

namespace Channel

variable {T : Type}

def make [Inhabited T] (minCapacity : Nat) : Channel T := { ring := .make minCapacity }

variable (c : Channel T) (v : T)

def tryPush : Channel T × Bool :=
  let (ring, ok) := c.ring.tryPush v
  (if ok then { c with ring := ring, offered := c.offered ++ [(v, .kept)] } else { c with ring := ring }, ok)

/-- The producer gives up on `v`. -/
def drop (counted : Bool) : Channel T := { c with offered := c.offered ++ [(v, .dropped counted)] }

/-- A push whose result nobody looks at. -/
def offer : Channel T :=
  let (c', ok) := c.tryPush v
  if ok then c' else c'.drop v false

def tryPop : Channel T × Option T :=
  let (ring, got) := c.ring.tryPop
  ({ c with ring := ring, taken := c.taken ++ got.toList }, got)

/-- The values in the ring. -/
def contents : List T := c.ring.contents

def full : Prop := c.contents.length + 1 = c.ring.capacity

instance : Decidable c.full := inferInstanceAs (Decidable (_ = _))

structure Sound (c : Channel T) : Prop where
  holds : c.ring.Holds c.contents
  order : c.taken ++ c.contents = c.offered.kept

variable {c}

theorem Sound.of_holds {q : List T} (hh : c.ring.Holds q) (ho : c.taken ++ q = c.offered.kept) : Sound c := by
  have hc : c.contents = q := SpscRing.contents_eq hh
  refine ⟨?_, ?_⟩ <;> rw [hc] <;> assumption

theorem make_sound [Inhabited T] (minCapacity : Nat) : Sound (make minCapacity : Channel T) :=
  Sound.of_holds (SpscRing.make_holds minCapacity) rfl

theorem Sound.drop (h : Sound c) (v : T) (counted : Bool) : Sound (c.drop v counted) := by
  refine Sound.of_holds h.holds ?_
  rw [Channel.drop, Offers.kept_dropped]
  exact h.order

/-- A push fails on the full ring only, and leaves it full. -/
theorem tryPush_cases (h : Sound c) (v : T) :
    (c.full ∧ (c.tryPush v).1.full ∧ (c.tryPush v).2 = false ∧ Sound (c.tryPush v).1 ∧
      (c.tryPush v).1.offered = c.offered ∧ (c.tryPush v).1.taken = c.taken) ∨
    (¬ c.full ∧ (c.tryPush v).2 = true ∧ Sound (c.tryPush v).1 ∧ (c.tryPush v).1.offered = c.offered ++ [(v, .kept)] ∧
      (c.tryPush v).1.taken = c.taken) := by
  obtain ⟨hcap, hpush⟩ := SpscRing.tryPush_spec h.holds v
  rcases e : c.ring.tryPush v with ⟨ring, ok⟩
  rw [e] at hcap hpush
  rw [tryPush, e]
  by_cases hf : c.contents.length + 1 = c.ring.capacity
  · rw [if_pos hf] at hpush
    obtain ⟨rfl, hh⟩ := hpush
    have hfull : ring.contents.length + 1 = ring.capacity := by
      rw [SpscRing.contents_eq hh, hcap]
      exact hf
    exact Or.inl ⟨hf, hfull, rfl, Sound.of_holds hh h.order, rfl, rfl⟩
  · rw [if_neg hf] at hpush
    obtain ⟨rfl, hh⟩ := hpush
    refine Or.inr ⟨hf, rfl, Sound.of_holds hh ?_, rfl, rfl⟩
    show c.taken ++ (c.contents ++ [v]) = Offers.kept (c.offered ++ [(v, .kept)])
    rw [Offers.kept_kept, ← List.append_assoc, h.order]

theorem offer_cases (h : Sound c) (v : T) :
    Sound (c.offer v) ∧ (c.offer v).taken = c.taken ∧
      (c.offer v).offered = c.offered ++ [(v, if c.full then .dropped false else .kept)] := by
  unfold offer
  rcases tryPush_cases h v with ⟨hf, _, hok, hs, ho, ht⟩ | ⟨hf, hok, hs, ho, ht⟩
  · rw [if_pos hf]
    simp only [hok]
    exact ⟨hs.drop v false, ht, congrArg (· ++ [(v, Fate.dropped false)]) ho⟩
  · rw [if_neg hf]
    simp only [hok]
    exact ⟨hs, ht, ho⟩

theorem Sound.length_lt (h : Sound c) : c.contents.length < c.ring.capacity := by
  obtain ⟨C, c0, p0, hat⟩ := h.holds
  exact hat.length_lt

theorem tryPush_contents (h : Sound c) (v : T) : (c.tryPush v).1.ring.capacity = c.ring.capacity ∧
    (c.tryPush v).1.contents = if c.full then c.contents else c.contents ++ [v] := by
  obtain ⟨hcap, hpush⟩ := SpscRing.tryPush_spec h.holds v
  have hring : (c.tryPush v).1.ring = (c.ring.tryPush v).1 := by
    unfold tryPush
    rcases c.ring.tryPush v with ⟨ring, ok⟩
    cases ok <;> rfl
  rw [contents, hring]
  refine ⟨hcap, ?_⟩
  by_cases hf : c.full
  · rw [if_pos hf]
    exact SpscRing.contents_eq ((if_pos hf ▸ hpush).2)
  · rw [if_neg hf]
    exact SpscRing.contents_eq ((if_neg hf ▸ hpush).2)

theorem tryPop_contents (h : Sound c) : c.tryPop.1.ring.capacity = c.ring.capacity ∧ c.tryPop.2 = c.contents.head? ∧
    c.tryPop.1.contents = c.contents.tail := by
  obtain ⟨hcap, hgot, hh⟩ := SpscRing.tryPop_spec h.holds
  exact ⟨hcap, hgot, SpscRing.contents_eq hh⟩

/-- A pop takes the oldest value there is. -/
theorem tryPop_spec (h : Sound c) :
    Sound c.tryPop.1 ∧ c.tryPop.1.offered = c.offered ∧ c.tryPop.1.taken = c.taken ++ c.tryPop.2.toList := by
  obtain ⟨_, hgot, hh⟩ := SpscRing.tryPop_spec h.holds
  refine ⟨Sound.of_holds hh ?_, rfl, rfl⟩
  show (c.taken ++ c.ring.tryPop.2.toList) ++ c.contents.tail = c.offered.kept
  rw [← h.order, hgot, List.append_assoc]
  cases c.contents <;> rfl

end Channel

end Lob
