/-
  Lob.Base.Links — doubly linked lists in a heap, over any type of addresses.

  A heap's links are two functions, `pv` (previous) and `nx` (next). `Seg pv nx b l a`:
  the addresses `l` are chained both ways, the first one's previous link is `b` and the
  last one's next link is `a`. `seg_append` cuts a segment, `Seg.relink` moves its two
  outer links; appending and unlinking are built from them. A segment read from the other
  end is one of the reversed list (`Seg.reverse`).
-/

import Mathlib.Data.List.Basic

namespace Lob.Base.Links

variable {ι : Type} (pv nx : ι → Option ι)

def Seg : Option ι → List ι → Option ι → Prop
  | _, [], _ => True
  | b, p :: ps, a => pv p = b ∧ nx p = ps.head?.or a ∧ Seg (some p) ps a

variable {pv nx}

theorem seg_append {a : Option ι} : ∀ {xs ys : List ι} {b : Option ι},
    Seg pv nx b (xs ++ ys) a ↔ Seg pv nx b xs (ys.head?.or a) ∧ Seg pv nx (xs.getLast?.or b) ys a := by
  intro xs
  induction xs with
  | nil => intro ys b; simp [Seg]
  | cons x xs ih =>
    intro ys b
    simp only [List.cons_append, Seg, ih, List.head?_append, Option.or_assoc, List.getLast?_cons]
    cases xs.getLast? <;> simp [and_assoc]

/-- A segment whose inner links are kept and whose outer links are set anew. -/
theorem Seg.relink {pv' nx' : ι → Option ι} {a a' : Option ι} :
    ∀ {l : List ι} {b b' : Option ι}, Seg pv nx b l a →
      (∀ p, l.head? = some p → pv' p = b') → (∀ p ∈ l.tail, pv' p = pv p) →
      (∀ p ∈ l.dropLast, nx' p = nx p) → (∀ p, l.getLast? = some p → nx' p = a') → Seg pv' nx' b' l a' := by
  intro l
  induction l with
  | nil => intro b b' _ _ _ _ _; trivial
  | cons x xs ih =>
    intro b b' h hp hps hn hl
    obtain ⟨_, h2, h3⟩ := h
    cases xs with
    | nil => exact ⟨hp x rfl, hl x rfl, trivial⟩
    | cons y ys =>
      refine ⟨hp x rfl, ?_, ?_⟩
      · rw [hn x (by simp), h2]; simp
      · refine ih h3 ?_ ?_ ?_ ?_
        · intro p e
          simp only [List.head?_cons, Option.some.injEq] at e
          subst e; rw [hps y (by simp)]; exact h3.1
        · exact fun p e => hps p (List.mem_of_mem_tail e)
        · exact fun p e => hn p (by rw [List.dropLast_cons_of_ne_nil (by simp)]; exact List.mem_cons_of_mem _ e)
        · exact fun p e => hl p (by rw [List.getLast?_cons_cons]; exact e)

theorem Seg.congr {pv' nx' : ι → Option ι} {b a : Option ι} {l : List ι} (h : Seg pv nx b l a)
    (hp : ∀ p ∈ l, pv' p = pv p) (hn : ∀ p ∈ l, nx' p = nx p) : Seg pv' nx' b l a := by
  induction l generalizing b with
  | nil => trivial
  | cons x xs ih =>
    exact ⟨by rw [hp x (by simp)]; exact h.1, by rw [hn x (by simp)]; exact h.2.1,
      ih h.2.2 (fun p e => hp p (List.mem_cons_of_mem _ e)) (fun p e => hn p (List.mem_cons_of_mem _ e))⟩

theorem Seg.reverse {a : Option ι} : ∀ {l : List ι} {b : Option ι}, Seg pv nx b l a → Seg nx pv a l.reverse b := by
  intro l
  induction l with
  | nil => intro b _; trivial
  | cons x xs ih =>
    intro b h
    obtain ⟨hp, hn, hrest⟩ := h
    rw [List.reverse_cons, seg_append]
    refine ⟨ih hrest, ?_, hp, trivial⟩
    rw [hn, List.getLast?_reverse]

/-- Following `nx` for at most `n` nodes. -/
def walk (nx : ι → Option ι) : Nat → Option ι → List ι
  | 0, _ => []
  | _ + 1, none => []
  | n + 1, some p => p :: walk nx n (nx p)

theorem Seg.walk_eq {l : List ι} : ∀ {b : Option ι} {n : Nat}, Seg pv nx b l none → l.length ≤ n →
    walk nx n l.head? = l := by
  induction l with
  | nil => intro b n _ _; cases n <;> rfl
  | cons x xs ih =>
    intro b n h hn
    obtain ⟨_, h2, h3⟩ := h
    cases n with
    | zero => simp at hn
    | succ n =>
      simp only [List.head?_cons, walk, h2, Option.or_none]
      rw [ih h3 (by simpa using hn)]

end Lob.Base.Links
