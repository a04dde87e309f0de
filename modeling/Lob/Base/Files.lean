/-
  Lob.Base.Files — names, and the files they stand for.

  A name is an entry of a directory. A file stays what it is when its entry goes or stands
  for another one, so whoever has it open reads on. `truncate` opens a name for writing;
  what it does to the other files is `truncate_frame`, and no file gets a second name
  (`WellFormed`).
-/

import Mathlib.Logic.Function.Basic

namespace Lob.Base

structure Files (Name α : Type) where
  dir : Name → Option Nat := fun _ => none
  data : Nat → List α := fun _ => []
  /-- The files made so far. -/
  next : Nat := 0

namespace Files

variable {Name α : Type} [DecidableEq Name]

section Operations

variable (f : Files Name α)

/-- Opens a name for writing, emptied, or made if it is not there. -/
def truncate (n : Name) : Nat × Files Name α :=
  match f.dir n with
  | some i => (i, { f with data := Function.update f.data i [] })
  | none =>
    (f.next,
      { dir := Function.update f.dir n (some f.next), data := Function.update f.data f.next [], next := f.next + 1 })

def append (i : Nat) (xs : List α) : Files Name α := { f with data := Function.update f.data i (f.data i ++ xs) }

def remove (n : Name) : Files Name α := { f with dir := Function.update f.dir n none }

def rename (n m : Name) : Files Name α :=
  { f with dir := Function.update (Function.update f.dir m (f.dir n)) n none }

end Operations

/-- Every name stands for a file there is, and for its own. -/
structure WellFormed (f : Files Name α) : Prop where
  made : ∀ n i, f.dir n = some i → i < f.next
  one : ∀ n m i, f.dir n = some i → f.dir m = some i → n = m

variable {f : Files Name α} {n m : Name} {i j : Nat}

omit [DecidableEq Name] in
theorem WellFormed.append (h : WellFormed f) (i : Nat) (xs : List α) : WellFormed (f.append i xs) := ⟨h.made, h.one⟩

omit [DecidableEq Name] in
@[simp] theorem append_data (xs : List α) : (f.append i xs).data i = f.data i ++ xs := Function.update_self ..

omit [DecidableEq Name] in
theorem append_other (xs : List α) (hne : j ≠ i) : (f.append i xs).data j = f.data j := Function.update_of_ne hne ..

@[simp] theorem remove_gone : (f.remove n).dir n = none := Function.update_self ..

theorem remove_other (hne : m ≠ n) : (f.remove n).dir m = f.dir m := Function.update_of_ne hne ..

theorem WellFormed.remove (h : WellFormed f) (n : Name) : WellFormed (f.remove n) := by
  have hdir : ∀ m i, (f.remove n).dir m = some i → f.dir m = some i := by
    intro m i hm
    by_cases hmn : m = n
    · rw [hmn, remove_gone] at hm
      cases hm
    · rwa [remove_other hmn] at hm
  exact ⟨fun m i hm => h.made m i (hdir m i hm), fun m k i hm hk => h.one m k i (hdir m i hm) (hdir k i hk)⟩

theorem rename_dir (hne : n ≠ m) : (f.rename n m).dir m = f.dir n :=
  (Function.update_of_ne hne.symm ..).trans (Function.update_self ..)

@[simp] theorem rename_gone : (f.rename n m).dir n = none := Function.update_self ..

theorem rename_other {k : Name} (hn : k ≠ n) (hm : k ≠ m) : (f.rename n m).dir k = f.dir k :=
  (Function.update_of_ne hn ..).trans (Function.update_of_ne hm ..)

theorem WellFormed.rename (h : WellFormed f) (hne : n ≠ m) : WellFormed (f.rename n m) := by
  -- an entry is the one it was, or the renamed one
  have hdir : ∀ k i, (f.rename n m).dir k = some i → (k = m ∧ f.dir n = some i) ∨ (k ≠ n ∧ k ≠ m ∧ f.dir k = some i) := by
    intro k i hk
    by_cases hkn : k = n
    · rw [hkn, rename_gone] at hk
      cases hk
    · by_cases hkm : k = m
      · rw [hkm, rename_dir hne] at hk
        exact Or.inl ⟨hkm, hk⟩
      · rw [rename_other hkn hkm] at hk
        exact Or.inr ⟨hkn, hkm, hk⟩
  constructor
  case made =>
    intro k i hk
    rcases hdir k i hk with ⟨_, hn⟩ | ⟨_, _, hk⟩
    · exact h.made n i hn
    · exact h.made k i hk
  case one =>
    intro k l i hk hl
    rcases hdir k i hk with ⟨hkm, hn⟩ | ⟨hkn, _, hold⟩
    · rcases hdir l i hl with ⟨hlm, _⟩ | ⟨hln, _, hold⟩
      · exact hkm.trans hlm.symm
      · exact absurd (h.one l n i hold hn) hln
    · rcases hdir l i hl with ⟨_, hn⟩ | ⟨_, _, hold'⟩
      · exact absurd (h.one k n i hold hn) hkn
      · exact h.one k l i hold hold'

theorem truncate_dir : (f.truncate n).2.dir n = some (f.truncate n).1 := by
  unfold truncate
  split
  · next i hi => exact hi
  · exact Function.update_self ..

theorem truncate_data : (f.truncate n).2.data (f.truncate n).1 = [] := by
  unfold truncate
  split <;> exact Function.update_self ..

/-- The other names are as before. -/
theorem truncate_other (hne : m ≠ n) : (f.truncate n).2.dir m = f.dir m := by
  unfold truncate
  split
  · rfl
  · exact Function.update_of_ne hne ..

/-- A file that was there and is not the name's is another one, and keeps what is in it. -/
theorem truncate_frame (hj : j < f.next) (hne : f.dir n ≠ some j) :
    (f.truncate n).1 ≠ j ∧ (f.truncate n).2.data j = f.data j ∧ j < (f.truncate n).2.next := by
  unfold truncate
  split
  · next i hi =>
    have hij : i ≠ j := fun h => hne (h ▸ hi)
    exact ⟨hij, Function.update_of_ne hij.symm .., hj⟩
  · have hjn : j ≠ f.next := Nat.ne_of_lt hj
    exact ⟨hjn.symm, Function.update_of_ne hjn .., Nat.lt_succ_of_lt hj⟩

theorem WellFormed.truncate (h : WellFormed f) (n : Name) : WellFormed (f.truncate n).2 := by
  unfold Files.truncate
  split
  · exact ⟨h.made, h.one⟩
  · have hdir : ∀ m i, Function.update f.dir n (some f.next) m = some i → (m = n ∧ i = f.next) ∨ f.dir m = some i := by
      intro m i hm
      by_cases hmn : m = n
      · subst hmn
        rw [Function.update_self] at hm
        exact Or.inl ⟨rfl, (Option.some.inj hm).symm⟩
      · rw [Function.update_of_ne hmn] at hm
        exact Or.inr hm
    constructor
    case made =>
      intro m i hm
      rcases hdir m i hm with ⟨_, rfl⟩ | hold
      · exact Nat.lt_succ_self _
      · exact Nat.lt_succ_of_lt (h.made m i hold)
    case one =>
      intro m k i hm hk
      rcases hdir m i hm with ⟨hmn, hnew⟩ | hold
      · rcases hdir k i hk with ⟨hkn, _⟩ | hold
        · exact hmn.trans hkn.symm
        · exact absurd hnew (Nat.ne_of_lt (h.made k i hold))
      · rcases hdir k i hk with ⟨_, hnew⟩ | hold'
        · exact absurd hnew (Nat.ne_of_lt (h.made m i hold))
        · exact h.one m k i hold hold'

end Files

end Lob.Base
