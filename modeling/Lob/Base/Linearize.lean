/-
  Lob.Base.Linearize — linearizable objects, over any object, any threads and any steps.

  A sequential object says what an operation does and returns. The atomic object of it
  (`Step`) has threads: one calls an operation, the operation takes effect at one point,
  and only then it returns what it returned there. A history of calls and returns is
  `Linearizable` if the atomic object can show it.

  - `simulates_run`: a system each step of which the atomic object can follow has only
    linearizable histories.
  - `turns_of_runs`: programs that see the object only through their calls cannot tell it
    from one whose operations run one at a time: for every history they take part in there
    is an order of whole operations that brings every program where the history did.
-/

import Mathlib.Logic.Function.Basic

namespace Lob.Base.Linearize

variable {Θ A Op Res : Type} [DecidableEq Θ]

/-- What an operation does to the object, and what it returns. -/
abbrev Object (A Op Res : Type) := A → Op → A × Res

/-- What is seen of the threads: the calls and the returns. -/
inductive Event (Θ Op Res : Type) where
  | call (t : Θ) (op : Op)
  | ret (t : Θ) (res : Res)

/-- Where a thread stands in its operation; `done` is after its point. -/
inductive Phase (Op Res : Type) where
  | idle
  | called (op : Op)
  | done (op : Op) (res : Res)

structure Atomic (Θ A Op Res : Type) where
  obj : A
  phase : Θ → Phase Op Res

/-- The atomic object. A point is not seen. -/
inductive Step (O : Object A Op Res) : Atomic Θ A Op Res → Option (Event Θ Op Res) → Atomic Θ A Op Res → Prop
  | call {s : Atomic Θ A Op Res} {t : Θ} (op : Op) : s.phase t = .idle →
      Step O s (some (.call t op)) ⟨s.obj, Function.update s.phase t (.called op)⟩
  | point {s : Atomic Θ A Op Res} {t : Θ} {op : Op} : s.phase t = .called op →
      Step O s none ⟨(O s.obj op).1, Function.update s.phase t (.done op (O s.obj op).2)⟩
  | ret {s : Atomic Θ A Op Res} {t : Θ} {op : Op} {res : Res} : s.phase t = .done op res →
      Step O s (some (.ret t res)) ⟨s.obj, Function.update s.phase t .idle⟩

/-- Steps one after the other, and the history they show. -/
inductive Runs (O : Object A Op Res) (s : Atomic Θ A Op Res) : List (Event Θ Op Res) → Atomic Θ A Op Res → Prop
  | nil : Runs O s [] s
  | snoc {h : List (Event Θ Op Res)} {x y : Atomic Θ A Op Res} {e : Option (Event Θ Op Res)} :
      Runs O s h x → Step O x e y → Runs O s (h ++ e.toList) y

/-- As constructed: no thread in an operation. -/
def Atomic.init (a : A) : Atomic Θ A Op Res := ⟨a, fun _ => .idle⟩

def Linearizable (O : Object A Op Res) (a : A) (h : List (Event Θ Op Res)) : Prop :=
  ∃ s, Runs O (.init a) h s

variable {O : Object A Op Res} {s x y : Atomic Θ A Op Res} {h h' : List (Event Θ Op Res)}

theorem Runs.one {e : Option (Event Θ Op Res)} (hs : Step O s e x) : Runs O s e.toList x :=
  Runs.nil.snoc hs

theorem Runs.trans (hx : Runs O s h x) (hy : Runs O x h' y) : Runs O s (h ++ h') y := by
  induction hy with
  | nil => rwa [List.append_nil]
  | snoc _ hs ih =>
    rw [← List.append_assoc]
    exact ih.snoc hs

/-- A thread that stays where it is. -/
theorem Runs.stay {t : Θ} {ph : Phase Op Res} (h : s.phase t = ph) : Runs O s [] ⟨s.obj, Function.update s.phase t ph⟩ := by
  rw [← h, Function.update_eq_self]
  exact .nil

/-- An operation that returns at its point. -/
theorem Runs.point_ret {t : Θ} {op : Op} (h : s.phase t = .called op) :
    Runs O s [.ret t (O s.obj op).2] ⟨(O s.obj op).1, Function.update s.phase t .idle⟩ := by
  have hpoint := Runs.one (Step.point (O := O) h)
  have hdone : Function.update s.phase t (.done op (O s.obj op).2) t = .done op (O s.obj op).2 := Function.update_self ..
  have hret := hpoint.snoc (.ret hdone)
  rwa [Function.update_idem] at hret

/-! ## Systems that implement it -/

section

variable {S M : Type} (step : S → M → S) (shows : S → M → Option (Event Θ Op Res))

/-- What a run of a system shows. -/
def history : S → List M → List (Event Θ Op Res)
  | _, [] => []
  | s, m :: ms => (shows s m).toList ++ history (step s m) ms

variable {step shows}

/-- A system whose every step the atomic object can follow, through the map `abs`. -/
theorem simulates_run {Inv : S → Prop} {abs : S → Atomic Θ A Op Res}
    (hstep : ∀ s m, Inv s → Inv (step s m) ∧ Runs O (abs s) (shows s m).toList (abs (step s m)))
    {s : S} (hs : Inv s) (ms : List M) :
    Inv (ms.foldl step s) ∧ Runs O (abs s) (history step shows s ms) (abs (ms.foldl step s)) := by
  induction ms generalizing s with
  | nil => exact ⟨hs, .nil⟩
  | cons m ms ih =>
    obtain ⟨hs', hrun⟩ := hstep s m hs
    obtain ⟨hend, hrest⟩ := ih hs'
    exact ⟨hend, hrun.trans hrest⟩

end

/-! ## Programs over the object -/

variable {L : Θ → Type}

/-- A thread's program: its next operation, and where it goes with what that returns. -/
structure Program (L : Θ → Type) (Op Res : Type) where
  next : ∀ t, L t → Op
  resume : ∀ t, L t → Res → L t

namespace Program

variable (P : Program L Op Res)

def resumed (l : ∀ t, L t) : Event Θ Op Res → ∀ t, L t
  | .call _ _ => l
  | .ret t res => Function.update l t (P.resume t (l t) res)

/-- Where the programs are after a history. -/
def after (l : ∀ t, L t) (h : List (Event Θ Op Res)) : ∀ t, L t := h.foldl P.resumed l

/-- Every call of the history is its program's next. -/
def Follows (l : ∀ t, L t) (h : List (Event Θ Op Res)) : Prop :=
  ∀ before t op, before ++ [.call t op] <+: h → op = P.next t (P.after l before t)

/-- One whole operation of thread `t`. -/
def turn (O : Object A Op Res) (s : A × (∀ t, L t)) (t : Θ) : A × (∀ t, L t) :=
  ((O s.1 (P.next t (s.2 t))).1, Function.update s.2 t (P.resume t (s.2 t) (O s.1 (P.next t (s.2 t))).2))

def turns (O : Object A Op Res) (s : A × (∀ t, L t)) (ts : List Θ) : A × (∀ t, L t) := ts.foldl (P.turn O) s

/-- A program at `seen` by the history, at `gone` by the whole operations: past its operation
    exactly if that has had its point. -/
def Stands (t : Θ) (seen gone : L t) : Phase Op Res → Prop
  | .idle => gone = seen
  | .called op => op = P.next t seen ∧ gone = seen
  | .done op res => op = P.next t seen ∧ gone = P.resume t seen res

structure Agrees (l : ∀ t, L t) (y : A × (∀ t, L t)) (x : Atomic Θ A Op Res) : Prop where
  obj : y.1 = x.obj
  each : ∀ t, P.Stands t (l t) (y.2 t) (x.phase t)

variable {P} {l : ∀ t, L t}

theorem Follows.left (hf : P.Follows l (h ++ h')) : P.Follows l h :=
  fun before t op hp => hf before t op (hp.trans (List.prefix_append h h'))

theorem follows_nil : P.Follows l ([] : List (Event Θ Op Res)) := by
  intro before t op hp
  obtain ⟨rest, hrest⟩ := hp
  simp at hrest

theorem follows_cons {e : Event Θ Op Res} :
    P.Follows l (e :: h) ↔ (∀ t op, e = .call t op → op = P.next t (l t)) ∧ P.Follows (P.resumed l e) h := by
  constructor
  · intro hf
    refine ⟨fun t op he => ?_, fun before t op hp => ?_⟩
    · subst he
      exact hf [] t op ⟨h, rfl⟩
    · exact hf (e :: before) t op ((List.prefix_cons_inj e).mpr hp)
  · intro hf before t op hp
    cases before with
    | nil =>
      obtain ⟨rest, hrest⟩ := hp
      exact hf.1 t op (List.cons.inj hrest).1.symm
    | cons b before =>
      rw [List.cons_append, List.cons_prefix_cons] at hp
      obtain ⟨rfl, hrest⟩ := hp
      exact hf.2 before t op hrest

/-- A point is a whole operation; a call and a return are none. -/
theorem Agrees.step {e : Option (Event Θ Op Res)} {z : A × (∀ t, L t)} (ha : P.Agrees l z x) (hs : Step O x e y)
    (hcall : ∀ t op, e = some (.call t op) → op = P.next t (l t)) :
    ∃ ts, P.Agrees (e.toList.foldl P.resumed l) (P.turns O z ts) y := by
  have heach := ha.each
  cases hs with
  | @call t op hidle =>
    refine ⟨[], ha.obj, (Function.forall_update_iff _ _).mpr ⟨⟨hcall t op rfl, ?_⟩, fun u _ => heach u⟩⟩
    have := heach t
    rwa [hidle] at this
  | @point t op hcalled =>
    have ht := heach t
    rw [hcalled] at ht
    obtain ⟨hop, hgone⟩ := ht
    refine ⟨[t], ?_, fun u => ?_⟩
    · show (O z.1 (P.next t (z.2 t))).1 = (O x.obj op).1
      rw [ha.obj, hgone, ← hop]
    · show P.Stands u (l u) (Function.update z.2 t (P.resume t (z.2 t) (O z.1 (P.next t (z.2 t))).2) u)
        (Function.update x.phase t (.done op (O x.obj op).2) u)
      by_cases e : u = t
      · subst e
        rw [Function.update_self, Function.update_self, ha.obj, hgone, ← hop]
        exact ⟨hop, rfl⟩
      · rw [Function.update_of_ne e, Function.update_of_ne e]
        exact heach u
  | @ret t op res hdone =>
    refine ⟨[], ha.obj, fun u => ?_⟩
    show P.Stands u (Function.update l t (P.resume t (l t) res) u) (z.2 u) (Function.update x.phase t .idle u)
    by_cases e : u = t
    · subst e
      have hu := heach u
      rw [hdone] at hu
      rw [Function.update_self, Function.update_self]
      exact hu.2
    · rw [Function.update_of_ne e, Function.update_of_ne e]
      exact heach u

/-- The whole operations are those of the points, in their order. -/
theorem turns_of_runs {a : A} (hr : Runs O (.init a) h x) (hf : P.Follows l h) :
    ∃ ts, P.Agrees (P.after l h) (P.turns O (a, l) ts) x := by
  induction hr with
  | nil => exact ⟨[], rfl, fun _ => rfl⟩
  | @snoc h x y e hrun hstep ih =>
    obtain ⟨ts, ha⟩ := ih hf.left
    have hcall : ∀ t op, e = some (.call t op) → op = P.next t (P.after l h t) := by
      intro t op he
      subst he
      exact hf h t op List.prefix_rfl
    obtain ⟨us, hb⟩ := ha.step hstep hcall
    refine ⟨ts ++ us, ?_⟩
    rwa [after, List.foldl_append, turns, List.foldl_append]

end Program

end Lob.Base.Linearize
