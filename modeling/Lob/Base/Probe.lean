/-
  Lob.Base.Probe — open addressing with linear probing on a cyclic table of `c` slots,
  over any key type and any home-slot function.

  A table is clustered when no empty slot lies between a key's home slot and the slot
  that holds it, so a probe that starts at home and stops at the first empty slot meets
  every key it should. Three rules keep it:
  - `clustered_put`: filling the first empty slot of a key's probe sequence;
  - `shifting_start`, `shifting_keep`, `shifting_move`, `shifting_done`: backward-shift
    deletion. `Shifting t hole i` is the state of a scan that reached slot `i`: `hole`
    still holds a stale entry, and no entry in the scanned slots after it has `hole` on
    its probe sequence.
-/

import Mathlib.Logic.Function.Basic
import Mathlib.Tactic.SplitIfs

namespace Lob.Base.Probe

/-! ## Cyclic distance -/

/-- How far slot `b` lies after slot `a`. -/
def dist (c a b : Nat) : Nat := (b + c - a) % c

variable {c : Nat}

theorem mod_unroll {x : Nat} (h : x < 2 * c) : x % c = if x < c then x else x - c := by
  split_ifs with hx
  · exact Nat.mod_eq_of_lt hx
  · rw [Nat.mod_eq_sub_mod (by omega)]; exact Nat.mod_eq_of_lt (by omega)

theorem dist_eq {a b : Nat} (ha : a < c) (hb : b < c) : dist c a b = if a ≤ b then b - a else b + c - a := by
  unfold dist
  rw [mod_unroll (by omega)]
  split_ifs <;> omega

theorem dist_lt {a b : Nat} (ha : a < c) : dist c a b < c := Nat.mod_lt _ (by omega)

theorem dist_self {a : Nat} (ha : a < c) : dist c a a = 0 := by simp [dist_eq ha ha]

theorem add_dist {a b : Nat} (ha : a < c) (hb : b < c) : (a + dist c a b) % c = b := by
  have h := dist_lt (b := b) ha
  rw [mod_unroll (by omega)]
  rw [dist_eq ha hb] at *
  split_ifs at * <;> omega

theorem dist_add {a d : Nat} (ha : a < c) (hd : d < c) : dist c a ((a + d) % c) = d := by
  rw [dist_eq ha (Nat.mod_lt _ (by omega)), mod_unroll (x := a + d) (by omega)]
  split_ifs <;> omega

/-- Past `b`, the way from `a` to `j` is the way from `b` to `j`. -/
theorem dist_split {a b j : Nat} (ha : a < c) (hb : b < c) (hj : j < c) (h : dist c a b ≤ dist c a j) :
    dist c a j = dist c a b + dist c b j := by
  rw [dist_eq ha hb, dist_eq ha hj] at *
  rw [dist_eq hb hj]
  split_ifs at * <;> omega

theorem dist_succ {a b : Nat} (ha : a < c) (hb : b < c) (h : (b + 1) % c ≠ a) :
    dist c a ((b + 1) % c) = dist c a b + 1 := by
  rw [dist_eq ha (Nat.mod_lt _ (by omega)), dist_eq ha hb]
  rw [mod_unroll (x := b + 1) (by omega)] at *
  split_ifs at * <;> omega

theorem dist_pred {a z : Nat} (ha : a < c) (hz : z < c) (h : a ≠ z) :
    dist c a z = dist c ((a + 1) % c) z + 1 := by
  rw [dist_eq ha hz, dist_eq (Nat.mod_lt _ (by omega)) hz]
  rw [mod_unroll (x := a + 1) (by omega)]
  split_ifs <;> omega

theorem eq_of_dist_eq {a b j : Nat} (ha : a < c) (hb : b < c) (hj : j < c) (h : dist c a b = dist c a j) :
    b = j := by rw [← add_dist ha hb, ← add_dist ha hj, h]

/-! ## Clustered tables -/

variable {κ : Type} (home : κ → Nat)

/-- The slots from home up to slot `i` (not included) are taken. -/
def Path (c : Nat) (t : Nat → Option κ) (h i : Nat) : Prop := ∀ d < dist c h i, t ((h + d) % c) ≠ none

def Clustered (c : Nat) (t : Nat → Option κ) : Prop := ∀ i < c, ∀ k, t i = some k → Path c t (home k) i

variable {home}

theorem Path.update_some {t : Nat → Option κ} {h i e : Nat} {k : κ} (hp : Path c t h i) :
    Path c (Function.update t e (some k)) h i := by
  intro d hd
  by_cases he : (h + d) % c = e
  · rw [he, Function.update_self]; exact Option.some_ne_none k
  · rw [Function.update_of_ne he]; exact hp d hd

/-- Filling the first empty slot `e` of `k`'s probe sequence. -/
theorem clustered_put {t : Nat → Option κ} (ht : Clustered home c t) {k : κ} {e : Nat}
    (hp : Path c t (home k) e) : Clustered home c (Function.update t e (some k)) := by
  intro i hi k' hk'
  by_cases hie : i = e
  · subst hie
    rw [Function.update_self] at hk'
    cases hk'
    exact hp.update_some
  · rw [Function.update_of_ne hie] at hk'
    exact (ht i hi k' hk').update_some

/-! ## Backward-shift deletion -/

/-- The scan stands at slot `i`; the entry at `hole` is gone or was moved away. -/
structure Shifting (home : κ → Nat) (c : Nat) (t : Nat → Option κ) (hole i : Nat) : Prop where
  hole_lt : hole < c
  pos_lt : i < c
  /-- The slots from the hole to the scan are taken. -/
  taken : ∀ d ≤ dist c hole i, t ((hole + d) % c) ≠ none
  path : ∀ j < c, j ≠ hole → ∀ k, t j = some k → Path c t (home k) j
  /-- No scanned entry is reached through the hole. -/
  clear : ∀ j < c, 0 < dist c hole j → dist c hole j ≤ dist c hole i → ∀ k, t j = some k →
    dist c (home k) j ≤ dist c (home k) hole

theorem Shifting.ne_hole {t : Nat → Option κ} {hole i : Nat} (hs : Shifting home c t hole i) {z : Nat}
    (hz : z < c) (hn : t z = none) : (i + 1) % c ≠ hole := by
  intro he
  have hi := hs.pos_lt
  have hd : dist c hole i = c - 1 := by
    rw [mod_unroll (by omega)] at he
    rw [dist_eq hs.hole_lt hi]
    split_ifs at * <;> omega
  refine hs.taken (dist c hole z) ?_ ?_
  · have := dist_lt (b := z) hs.hole_lt; omega
  · rw [add_dist hs.hole_lt hz]; exact hn

theorem shifting_start {t : Nat → Option κ} (ht : Clustered home c t) {hole : Nat} (hl : hole < c)
    (hn : t hole ≠ none) : Shifting home c t hole hole where
  hole_lt := hl
  pos_lt := hl
  taken d hd := by
    rw [dist_self hl] at hd
    have : d = 0 := by omega
    subst this
    simpa [Nat.mod_eq_of_lt hl] using hn
  path j hj _ k hk := ht j hj k hk
  clear j hj h0 h1 _ _ := by rw [dist_self hl] at h1; omega

variable {t : Nat → Option κ} {hole i : Nat}

theorem Shifting.taken_succ (hs : Shifting home c t hole i) (hne : (i + 1) % c ≠ hole) {k : κ}
    (hk : t ((i + 1) % c) = some k) : ∀ d ≤ dist c hole ((i + 1) % c), t ((hole + d) % c) ≠ none := by
  have hi := hs.pos_lt
  intro d hd
  rw [dist_succ hs.hole_lt hs.pos_lt hne] at hd
  rcases Nat.lt_or_ge d (dist c hole i + 1) with h | h
  · exact hs.taken d (by omega)
  · have e : d = dist c hole ((i + 1) % c) := by rw [dist_succ hs.hole_lt hs.pos_lt hne]; omega
    rw [e, add_dist hs.hole_lt (Nat.mod_lt _ (by omega)), hk]
    exact Option.some_ne_none k

/-- The next entry stays where it is: the hole is not on its probe sequence. -/
theorem shifting_keep (hs : Shifting home c t hole i) (hne : (i + 1) % c ≠ hole) {k : κ}
    (hk : t ((i + 1) % c) = some k)
    (hd : ¬ dist c (home k) hole < dist c (home k) ((i + 1) % c)) :
    Shifting home c t hole ((i + 1) % c) where
  hole_lt := hs.hole_lt
  pos_lt := Nat.mod_lt _ (by have := hs.pos_lt; omega)
  taken := hs.taken_succ hne hk
  path := hs.path
  clear j hj h0 h1 k' hk' := by
    rw [dist_succ hs.hole_lt hs.pos_lt hne] at h1
    rcases Nat.lt_or_ge (dist c hole i) (dist c hole j) with h | h
    · have e : j = (i + 1) % c := by
        refine eq_of_dist_eq hs.hole_lt hj (Nat.mod_lt _ (by omega)) ?_
        rw [dist_succ hs.hole_lt hs.pos_lt hne]; omega
      subst e
      rw [hk] at hk'; cases hk'
      omega
    · exact hs.clear j hj h0 h k' hk'

/-- The next entry moves into the hole and leaves a new one behind. -/
theorem shifting_move (hs : Shifting home c t hole i) (hne : (i + 1) % c ≠ hole) {k : κ}
    (hk : t ((i + 1) % c) = some k)
    (hd : dist c (home k) hole < dist c (home k) ((i + 1) % c)) :
    Shifting home c (Function.update t hole (some k)) ((i + 1) % c) ((i + 1) % c) where
  hole_lt := Nat.mod_lt _ (by have := hs.pos_lt; omega)
  pos_lt := Nat.mod_lt _ (by have := hs.pos_lt; omega)
  taken d hd' := by
    have hl : (i + 1) % c < c := Nat.mod_lt _ (by have := hs.pos_lt; omega)
    rw [dist_self hl] at hd'
    have : d = 0 := by omega
    subst this
    rw [Nat.add_zero, Nat.mod_eq_of_lt hl, Function.update_of_ne hne, hk]
    exact Option.some_ne_none k
  path j hj hji k' hk' := by
    by_cases e : j = hole
    · subst e
      rw [Function.update_self] at hk'
      cases hk'
      -- the way to the hole is the first part of the way to the entry that moved
      have hp := hs.path _ (Nat.mod_lt _ (by omega)) hne k hk
      intro d hd'
      have := hp d (by omega)
      by_cases e' : (home k + d) % c = j
      · rw [e', Function.update_self]; exact Option.some_ne_none k
      · rw [Function.update_of_ne e']; exact this
    · rw [Function.update_of_ne e] at hk'
      exact (hs.path j hj e k' hk').update_some
  clear j hj h0 h1 _ _ := by
    have hl : (i + 1) % c < c := Nat.mod_lt _ (by omega)
    rw [dist_self hl] at h1; omega

/-- An empty slot follows: the hole can be emptied. -/
theorem shifting_done (hh : ∀ k, home k < c) (hs : Shifting home c t hole i) (hn : t ((i + 1) % c) = none) :
    Clustered home c (Function.update t hole none) := by
  have hi := hs.pos_lt
  have hl : (i + 1) % c < c := Nat.mod_lt _ (by omega)
  have hne := hs.ne_hole hl hn
  intro j hj k hk d hd
  have hjh : j ≠ hole := by
    intro e; subst e; rw [Function.update_self] at hk; cases hk
  rw [Function.update_of_ne hjh] at hk
  have hp := hs.path j hj hjh k hk
  have hx : (home k + d) % c < c := Nat.mod_lt _ (by omega)
  by_cases e : (home k + d) % c = hole
  · -- the hole on the way to `j` puts `j` among the scanned slots
    exfalso
    have hdc : d < c := by have := dist_lt (b := j) (hh k); omega
    have hdd : dist c (home k) hole = d := by rw [← e]; exact dist_add (hh k) hdc
    have hsp := dist_split (hh k) hs.hole_lt hj (by omega : dist c (home k) hole ≤ dist c (home k) j)
    have hle : dist c hole j ≤ dist c hole i := by
      apply Classical.byContradiction
      intro hgt
      have hsucc := dist_succ hs.hole_lt hs.pos_lt hne
      rcases Nat.lt_or_ge (dist c hole i + 1) (dist c hole j) with h | h
      · have := hp (d + (dist c hole i + 1)) (by omega)
        rw [← Nat.add_assoc, ← Nat.mod_add_mod, e, ← hsucc, add_dist hs.hole_lt hl] at this
        exact this hn
      · have e' : j = (i + 1) % c := eq_of_dist_eq hs.hole_lt hj hl (by omega)
        subst e'
        rw [hn] at hk; cases hk
    have h0 : 0 < dist c hole j := by
      rcases Nat.eq_zero_or_pos (dist c hole j) with h | h
      · have := add_dist hs.hole_lt hj
        rw [h, Nat.add_zero, Nat.mod_eq_of_lt hs.hole_lt] at this
        exact absurd this.symm hjh
      · exact h
    have := hs.clear j hj h0 hle k hk
    omega
  · rw [Function.update_of_ne e]; exact hp d hd

end Lob.Base.Probe
