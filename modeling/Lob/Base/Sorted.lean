/-
  Lob.Base.Sorted — finite maps as lists sorted by a key, over any strict total order.

  `put` inserts or replaces the entry of a key, `del` drops it, `lookup` finds it. A
  sorted list splits around any key (`split_at`), which gives what `put` and `del` leave
  (`put_split`, `del_split`); a sorted list is determined by its lookups (`ext_lookup`).
-/

import Mathlib.Order.Defs.Unbundled
import Mathlib.Order.RelClasses
import Mathlib.Data.List.Basic

namespace Lob.Base.Sorted

variable {κ β : Type} (lt : κ → κ → Prop) (key : β → κ)

def Ordered (L : List β) : Prop := L.Pairwise fun a b => lt (key a) (key b)

variable [DecidableEq κ]

def lookup (k : κ) (L : List β) : Option β := L.find? fun b => key b = k

def del (k : κ) (L : List β) : List β := L.filter fun b => key b ≠ k

variable [DecidableRel lt]

def put (b : β) : List β → List β
  | [] => [b]
  | x :: xs => if key x = key b then b :: xs else if lt (key x) (key b) then x :: put b xs else b :: x :: xs

variable {lt key} {L xs ys : List β} {b : β} {k : κ}

omit [DecidableEq κ] [DecidableRel lt] in
theorem sorted_append : Ordered lt key (xs ++ ys) ↔
    Ordered lt key xs ∧ Ordered lt key ys ∧ ∀ x ∈ xs, ∀ y ∈ ys, lt (key x) (key y) := List.pairwise_append

omit [DecidableEq κ] [DecidableRel lt] in
theorem sorted_cons : Ordered lt key (b :: xs) ↔ (∀ x ∈ xs, lt (key b) (key x)) ∧ Ordered lt key xs :=
  List.pairwise_cons

theorem lookup_some (h : lookup key k L = some b) : b ∈ L ∧ key b = k :=
  ⟨List.mem_of_find?_eq_some h, by simpa using List.find?_some h⟩

variable [IsStrictTotalOrder κ lt]

omit [DecidableRel lt] in
theorem lookup_of_mem (hs : Ordered lt key L) (hb : b ∈ L) : lookup key (key b) L = some b := by
  induction L with
  | nil => cases hb
  | cons x xs ih =>
    obtain ⟨hx, hxs⟩ := sorted_cons.mp hs
    rcases List.mem_cons.mp hb with e | h
    · subst e; simp [lookup]
    · have hne : key x ≠ key b := fun e => irrefl (r := lt) (key b) (e ▸ hx b h)
      have := ih hxs h
      unfold lookup at this ⊢
      rw [List.find?_cons_of_neg (by simpa using hne)]; exact this

omit [DecidableRel lt] in
/-- A sorted list around the key `k`. -/
theorem split_at (hs : Ordered lt key L) (k : κ) : ∃ xs ys, L = xs ++ (lookup key k L).toList ++ ys ∧
    (∀ x ∈ xs, lt (key x) k) ∧ (∀ y ∈ ys, lt k (key y)) := by
  induction L with
  | nil => exact ⟨[], [], rfl, by simp, by simp⟩
  | cons x xs ih =>
    obtain ⟨hx, hxs⟩ := sorted_cons.mp hs
    by_cases e : key x = k
    · subst e
      exact ⟨[], xs, by simp [lookup], by simp, hx⟩
    have hl : lookup key k (x :: xs) = lookup key k xs := by
      unfold lookup; rw [List.find?_cons_of_neg (by simpa using e)]
    rw [hl]
    by_cases hlt : lt (key x) k
    · obtain ⟨as, bs, hL, ha, hb⟩ := ih hxs
      refine ⟨x :: as, bs, by rw [List.cons_append, List.cons_append, ← hL], ?_, hb⟩
      intro y hy
      rcases List.mem_cons.mp hy with e | h
      · subst e; exact hlt
      · exact ha y h
    · -- everything from `x` on lies beyond `k`
      have hk : lt k (key x) := by
        rcases trichotomous_of lt (key x) k with h | h | h
        · exact absurd h hlt
        · exact absurd h e
        · exact h
      have hall : ∀ y ∈ x :: xs, lt k (key y) := by
        intro y hy
        rcases List.mem_cons.mp hy with e | h
        · subst e; exact hk
        · exact trans_of lt hk (hx y h)
      have hn : lookup key k xs = none := by
        unfold lookup
        rw [List.find?_eq_none]
        intro y hy he
        have he : key y = k := by simpa using he
        exact irrefl (r := lt) k (he ▸ hall y (List.mem_cons_of_mem _ hy))
      exact ⟨[], x :: xs, by rw [hn]; rfl, by simp, hall⟩

theorem put_split (hx : ∀ x ∈ xs, lt (key x) (key b)) (hy : ∀ y ∈ ys, lt (key b) (key y)) (o : Option β)
    (ho : ∀ c, o = some c → key c = key b) : put lt key b (xs ++ o.toList ++ ys) = xs ++ b :: ys := by
  induction xs with
  | nil =>
    cases o with
    | none =>
      cases ys with
      | nil => rfl
      | cons y ys =>
        have h := hy y (by simp)
        have hne : key y ≠ key b := fun e => irrefl (r := lt) (key b) (by rw [e] at h; exact h)
        simp [put, hne, asymm h]
    | some c => simp [put, ho c rfl]
  | cons x xs ih =>
    have h := hx x (by simp)
    have hne : key x ≠ key b := fun e => irrefl (r := lt) (key b) (by rw [e] at h; exact h)
    simp only [List.cons_append, put, hne, h, if_true, if_false]
    rw [ih (fun x hx' => hx x (List.mem_cons_of_mem _ hx'))]

theorem put_eq (hs : Ordered lt key L) (b : β) : ∃ xs ys, L = xs ++ (lookup key (key b) L).toList ++ ys ∧
    put lt key b L = xs ++ b :: ys ∧ (∀ x ∈ xs, lt (key x) (key b)) ∧ (∀ y ∈ ys, lt (key b) (key y)) := by
  obtain ⟨xs, ys, hL, hx, hy⟩ := split_at hs (key b)
  refine ⟨xs, ys, hL, ?_, hx, hy⟩
  conv => lhs; rw [hL]
  exact put_split hx hy _ fun c hc => (lookup_some hc).2

omit [DecidableRel lt] in
theorem del_split (hx : ∀ x ∈ xs, lt (key x) k) (hy : ∀ y ∈ ys, lt k (key y)) (o : Option β)
    (ho : ∀ c, o = some c → key c = k) : del key k (xs ++ o.toList ++ ys) = xs ++ ys := by
  have keep : ∀ zs : List β, (∀ z ∈ zs, key z ≠ k) → zs.filter (fun b => key b ≠ k) = zs := by
    intro zs h
    rw [List.filter_eq_self]
    intro z hz; simpa using h z hz
  have hmid : o.toList.filter (fun b => key b ≠ k) = [] := by
    cases o with
    | none => rfl
    | some c => simp [ho c rfl]
  unfold del
  rw [List.filter_append, List.filter_append, hmid, keep xs fun x hx' e => irrefl (r := lt) k (e ▸ hx x hx'),
    keep ys fun y hy' e => irrefl (r := lt) k (e ▸ hy y hy'), List.append_nil]

omit [DecidableRel lt] in
theorem lookup_split (hx : ∀ x ∈ xs, lt (key x) k) (hy : ∀ y ∈ ys, lt k (key y)) (o : Option β)
    (ho : ∀ c, o = some c → key c = k) : lookup key k (xs ++ o.toList ++ ys) = o := by
  have miss : ∀ zs : List β, (∀ z ∈ zs, key z ≠ k) → zs.find? (fun b => key b = k) = none := by
    intro zs h
    rw [List.find?_eq_none]
    intro z hz; simpa using h z hz
  unfold lookup
  rw [List.find?_append, List.find?_append, miss xs fun x hx' e => irrefl (r := lt) k (e ▸ hx x hx'),
    miss ys fun y hy' e => irrefl (r := lt) k (e ▸ hy y hy')]
  cases o with
  | none => rfl
  | some c => simp [ho c rfl]

theorem sorted_put (hs : Ordered lt key L) (b : β) : Ordered lt key (put lt key b L) := by
  obtain ⟨xs, ys, hL, hp, hx, hy⟩ := put_eq hs b
  rw [hL, sorted_append, sorted_append] at hs
  rw [hp, sorted_append, sorted_cons]
  refine ⟨hs.1.1, ⟨hy, hs.2.1⟩, fun x hx' y hy' => ?_⟩
  rcases List.mem_cons.mp hy' with e | h
  · subst e; exact hx x hx'
  · exact trans_of lt (hx x hx') (hy y h)

omit [DecidableRel lt] [IsStrictTotalOrder κ lt] in
theorem sorted_del (hs : Ordered lt key L) (k : κ) : Ordered lt key (del key k L) :=
  List.Pairwise.sublist List.filter_sublist hs

theorem lookup_put (hs : Ordered lt key L) (b : β) (k : κ) :
    lookup key k (put lt key b L) = if k = key b then some b else lookup key k L := by
  obtain ⟨xs, ys, hL, hp, hx, hy⟩ := put_eq hs b
  split
  · rename_i e
    subst e
    exact lookup_of_mem (sorted_put hs b) (by rw [hp]; simp)
  · rename_i hne
    have hmid : ∀ c ∈ (lookup key (key b) L).toList, key c ≠ k := by
      intro c hc e
      have hc : lookup key (key b) L = some c := by simpa using hc
      exact hne (e ▸ (lookup_some hc).2)
    have hm : (lookup key (key b) L).toList.find? (fun c => key c = k) = none :=
      List.find?_eq_none.mpr fun c hc => by simpa using hmid c hc
    rw [hp]
    conv => rhs; rw [hL]
    unfold lookup at hm ⊢
    rw [List.find?_append, List.find?_append, List.find?_append, hm, Option.or_none,
      List.find?_cons_of_neg (by simpa using Ne.symm hne)]

omit [DecidableRel lt] [IsStrictTotalOrder κ lt] in
theorem lookup_del (L : List β) (k k' : κ) :
    lookup key k' (del key k L) = if k' = k then none else lookup key k' L := by
  unfold lookup del
  rw [List.find?_filter]
  split
  · rename_i e
    subst e
    rw [List.find?_eq_none]
    intro x _; simp
  · rename_i hne
    congr 1
    funext x
    by_cases h : key x = k'
    · have : key x ≠ k := fun e => hne (h ▸ e)
      simp [h, hne]
    · simp [h]

omit [DecidableRel lt] in
theorem mem_iff_lookup (hs : Ordered lt key L) : b ∈ L ↔ lookup key (key b) L = some b :=
  ⟨lookup_of_mem hs, fun h => (lookup_some h).1⟩

omit [DecidableEq κ] [DecidableRel lt] in
theorem nodup_of_ordered (hs : Ordered lt key L) : L.Nodup :=
  hs.imp fun {a b} h e => by subst e; exact irrefl (r := lt) (key a) h

omit [DecidableRel lt] in
/-- A sorted list is determined by its lookups. -/
theorem ext_lookup {L' : List β} (hs : Ordered lt key L) (hs' : Ordered lt key L')
    (h : ∀ k, lookup key k L = lookup key k L') : L = L' := by
  refine List.Perm.eq_of_pairwise ?_ hs hs' ?_
  · intro a b _ _ hab hba; exact absurd hba (asymm hab)
  · refine (List.perm_ext_iff_of_nodup (nodup_of_ordered hs) (nodup_of_ordered hs')).mpr fun b => ?_
    rw [mem_iff_lookup hs, mem_iff_lookup hs', h]

omit [IsStrictTotalOrder κ lt] in
/-- `put` commutes with a map that keeps keys. -/
theorem put_map {γ : Type} (f : γ → β) (c : γ) : ∀ M : List γ,
    (put lt (fun x => key (f x)) c M).map f = put lt key (f c) (M.map f) := by
  intro M
  induction M with
  | nil => rfl
  | cons x xs ih =>
    simp only [put, List.map_cons]
    split
    · rfl
    · split
      · rw [List.map_cons, ih]
      · rfl

omit [DecidableRel lt] [IsStrictTotalOrder κ lt] in
theorem lookup_map {γ : Type} (f : γ → β) (k : κ) (M : List γ) :
    lookup key k (M.map f) = (lookup (fun x => key (f x)) k M).map f := by
  unfold lookup; rw [List.find?_map]; rfl

end Lob.Base.Sorted
