/-
  Lob.Engine.MatchRefine — `match` is the reference matcher.

  The inner loop walks one level's queue while it takes that queue apart. Its invariant:
  what is left to walk is the queue of the best rung (`rung l q ++ ys`), and the reference
  matcher's run from the start is its run from here, behind the orders gone so far
  (`Resumes`). `matchLevel_spec` gives one pass, `matchLoop_spec` the passes together: a
  pass that does not end the match empties a level, so fewer orders are left.
-/

import Lob.Engine.FlatProofs
import Lob.Engine.StoreProofs

namespace Lob

/-! ## Part of a match -/

def Matched.behind (g : List OrderInfo) (r : Matched) : Matched := { r with gone := g ++ r.gone }

/-- The flat lists after the orders `g` of side `s` left. -/
structure Took (s : Side) (f f' : Flat) (g : List OrderInfo) : Prop where
  other : f'.side (opposite s) = f.side (opposite s)
  size : f'.size = f.size - (g.filter fun o => o.id ≠ 0).length
  cap : f'.cap = f.cap

theorem Took.refl (s : Side) (f : Flat) : Took s f f [] := ⟨rfl, rfl, rfl⟩

theorem Took.trans {s : Side} {f f' f'' : Flat} {g g' : List OrderInfo} (h : Took s f f' g) (h' : Took s f' f'' g') :
    Took s f f'' (g ++ g') := by
  refine ⟨h'.other.trans h.other, ?_, h'.cap.trans h.cap⟩
  rw [h'.size, h.size, List.filter_append, List.length_append, Nat.sub_sub]

theorem took_without {s : Side} {f : Flat} {L : List OrderInfo} {o : OrderInfo} :
    Took s f (f.without s L o.id) [o] := by
  refine ⟨setList_opposite f s L, ?_, rfl⟩
  show (if o.id = 0 then f.size else f.size - 1) = _
  by_cases h : o.id = 0 <;> simp [h]

variable {B : Type} [Book B] [LawfulBook B]

/-- The reference matcher's run from one point is its run from a later one, behind `g`. -/
def Resumes (client : ClientId) (s s' : Engine.Matching B) (f f' : Flat) (g : List OrderInfo) : Prop :=
  refMatch s.eng.cfg.stp client s.eng.untimed s.inc s.filled (f.side (opposite s.inc.side)) =
    (refMatch s.eng.cfg.stp client s'.eng.untimed s'.inc s'.filled (f'.side (opposite s.inc.side))).behind g

/-- How far a pass of the inner loop got: `f'` is what it left of `f`, less the orders `g`. -/
structure Passed (n : Nat) (lo hi : Price) (client : ClientId) (s s' : Engine.Matching B) (T' : Side → List Rung)
    (f f' : Flat) (g : List OrderInfo) : Prop where
  rep : Rep n lo hi s'.eng.toStore T' f'
  resumes : Resumes client s s' f f' g
  took : Took (opposite s.inc.side) f f' g
  cfg : s'.eng.cfg = s.eng.cfg
  inc : s'.inc = { s.inc with remaining := s'.inc.remaining }

variable {n : Nat} {lo hi : Price} {client : ClientId} {s s' s'' : Engine.Matching B} {T T' T'' : Side → List Rung}
  {f f' f'' : Flat} {g g' : List OrderInfo}

theorem Passed.side (h : Passed n lo hi client s s' T' f f' g) : s'.inc.side = s.inc.side := by rw [h.inc]

theorem Passed.refl (h : Rep n lo hi s.eng.toStore T f) : Passed n lo hi client s s T f f [] :=
  ⟨h, rfl, Took.refl _ _, rfl, rfl⟩

theorem Passed.trans (h : Passed n lo hi client s s' T' f f' g) (h' : Passed n lo hi client s' s'' T'' f' f'' g') :
    Passed n lo hi client s s'' T'' f f'' (g ++ g') := by
  have hs := h.side
  refine ⟨h'.rep, ?_, ?_, h'.cfg.trans h.cfg, ?_⟩
  · have h1 := h.resumes
    have h2 := h'.resumes
    unfold Resumes at *
    rw [h.cfg, hs] at h2
    rw [h1, h2]
    unfold Matched.behind
    simp only [List.append_assoc]
  · have := h'.took
    rw [hs] at this
    exact h.took.trans this
  · rw [h'.inc, h.inc]

/-! ## The inner loop -/

variable {l : PriceLevel} {q : List Ptr} {ys : List Rung} {r : Ptr}

/-- The order at the head of the best rung. -/
theorem Rep.head (h : Rep n lo hi s.eng.toStore T f) {sd : Side} (hT : T sd = (l, r :: q) :: ys) :
    f.side sd = (s.eng.order r).toOrderInfo :: infos s.eng.pool.storage (q ++ ptrs ys) ∧
    (s.eng.order r).price = l.price ∧ (s.eng.order r).next = q.head? := by
  have hmem : (l, r :: q) ∈ T sd := by rw [hT]; simp
  refine ⟨?_, (h.side sd).price _ hmem r (by simp), ?_⟩
  · rw [h.flat, hT]; rfl
  · have hq := (h.side sd).queue _ hmem
    have hq : Queue s.eng.pool.storage l ([] ++ r :: q) := hq
    exact hq.links_at.2.2.1

/-- The pass after an order was taken off the head of the level. -/
theorem Passed.drop (h : Rep n lo hi s.eng.toStore T f) (hT : T (opposite s.inc.side) = (l, r :: q) :: ys)
    (eng : Engine B) (heng : eng.toStore = s.eng.toStore) (hcfg : eng.cfg = s.eng.cfg) (inc : OrderInfo)
    (hinc : inc = { s.inc with remaining := inc.remaining }) (filled : Quantity)
    (hres : ∀ rest, refMatch s.eng.cfg.stp client s.eng.untimed s.inc s.filled ((s.eng.order r).toOrderInfo :: rest) =
      (refMatch s.eng.cfg.stp client eng.untimed inc filled rest).after (s.eng.order r).toOrderInfo) :
    ∃ st' l' T' f', eng.drop r (s.eng.order r).id = some st' ∧
      Passed n lo hi client s ⟨eng.withStore st', inc, filled⟩ T' f f' [(s.eng.order r).toOrderInfo] ∧
      T' (opposite s.inc.side) = rung l' q ++ ys ∧ ∀ p ∈ q, (st'.order p).toOrderInfo = (s.eng.order p).toOrderInfo := by
  obtain ⟨st', l', hdrop, hrep, _, hother⟩ := h.drop (show T _ = [] ++ (l, [] ++ r :: q) :: ys from hT)
  obtain ⟨hhead, _, _⟩ := h.head hT
  have hnd : (r :: q).Nodup := ((h.side _).queue (l, r :: q) (by rw [hT]; simp)).nodup
  refine ⟨st', l', _, _, by rw [heng]; exact hdrop, ⟨hrep, ?_, ?_, hcfg, hinc⟩, ?_, fun p hp => hother p fun e => ?_⟩
  · unfold Resumes
    rw [hhead, hres]
    have e : (f.without (opposite s.inc.side) (infos s.eng.pool.storage (ptrs [] ++ [] ++ (q ++ ptrs ys)))
        (s.eng.order r).id).side (opposite s.inc.side) = infos s.eng.pool.storage (q ++ ptrs ys) :=
      setList_side f _ _
    rw [e]
    rfl
  · exact took_without
  · rw [setSide_same]; rfl
  · exact (List.nodup_cons.mp hnd).1 (e ▸ hp)

/-- The pass that cancels the incoming order takes nothing. -/
theorem Passed.aggressor (h : Rep n lo hi s.eng.toStore T f) (hT : T (opposite s.inc.side) = (l, r :: q) :: ys)
    (hgo : ¬ (s.inc.remaining = 0 ∨ reaches s.inc (s.eng.order r).toOrderInfo = false))
    (hstp : s.eng.cfg.stp ≠ .none ∧ (s.eng.order r).client = client) (hagg : s.eng.cfg.stp = .cancelAggressor) :
    Passed n lo hi client s
      { s with eng := s.eng.withVars (s.eng.emitStpAggressor s.inc client), inc := { s.inc with remaining := 0 } } T f f [] := by
  refine ⟨h, ?_, Took.refl _ _, rfl, rfl⟩
  obtain ⟨hhead, _, _⟩ := h.head hT
  unfold Resumes
  rw [hhead, refMatch_aggressor hgo hstp hagg, refMatch_zero rfl]
  simp [Matched.behind, Engine.withVars]

/-- The pass that uses up the incoming order on part of the order at the head. -/
theorem Passed.part (h : Rep n lo hi s.eng.toStore T f) (hT : T (opposite s.inc.side) = (l, r :: q) :: ys)
    (hgo : ¬ (s.inc.remaining = 0 ∨ reaches s.inc (s.eng.order r).toOrderInfo = false))
    (hstp : ¬ (s.eng.cfg.stp ≠ .none ∧ (s.eng.order r).client = client)) {traded : Quantity}
    (ht : traded = min s.inc.remaining (s.eng.order r).remaining) (hpart : (s.eng.order r).remaining ≠ traded) :
    ∃ st' T' f', s.eng.reduce r traded = some st' ∧
      Passed n lo hi client s
        ⟨(s.eng.withVars (s.eng.emitTrade s.inc (s.eng.order r).toOrderInfo traded)).withStore st',
          { s.inc with remaining := s.inc.remaining - traded }, s.filled + traded⟩ T' f f' [] := by
  subst ht
  have hzero : s.inc.remaining - min s.inc.remaining (s.eng.order r).remaining = 0 := Quantity.sub_min_eq_zero hpart
  obtain ⟨hhead, _, _⟩ := h.head hT
  obtain ⟨st', R, hred, hptr, hsto, _, hrep⟩ := h.reduce (show T _ = [] ++ (l, [] ++ r :: q) :: ys from hT)
    (Quantity.min_le_right s.inc.remaining (s.eng.order r).remaining)
  refine ⟨st', _, _, hred, hrep, ?_, ⟨setList_opposite .., by simp [Flat.setList], rfl⟩, rfl, rfl⟩
  have hptrT : ptrs (T (opposite s.inc.side)) = r :: (q ++ ptrs ys) := by rw [hT]; rfl
  have hnd := (h.side (opposite s.inc.side)).nodup
  rw [hptrT] at hnd
  have hlist : (f.setList (opposite s.inc.side) (infos st'.pool.storage (ptrs (T (opposite s.inc.side))))).side
      (opposite s.inc.side) = { (s.eng.order r).toOrderInfo with
        remaining := (s.eng.order r).remaining - min s.inc.remaining (s.eng.order r).remaining } ::
          infos s.eng.pool.storage (q ++ ptrs ys) := by
    rw [setList_side, hptrT, hsto]
    unfold infos
    rw [List.map_cons, takeFrom_self]
    congr 1
    refine List.map_congr_left fun p hp => ?_
    rw [takeFrom_of_ne _ _ (show p ≠ r from fun e => (List.nodup_cons.mp hnd).1 (e ▸ hp))]
  unfold Resumes
  rw [hlist, hhead, refMatch_part hgo hstp hpart, refMatch_zero hzero]
  simp [Matched.behind, Engine.withVars, Engine.withStore]

omit [LawfulBook B] in
theorem matchLevel_zero {client : ClientId} {k : Nat} (hk : 0 < k) (h0 : s.inc.remaining = 0) (p : Option Ptr) :
    Engine.matchLevel client k s p = some s := by
  obtain ⟨k, rfl⟩ := Nat.exists_eq_succ_of_ne_zero (Nat.ne_of_gt hk)
  cases p with
  | none => rfl
  | some p =>
    unfold Engine.matchLevel
    rw [if_pos h0]

theorem matchLevel_spec (client : ClientId) : ∀ k (s : Engine.Matching B) T f l q ys,
    Rep n lo hi s.eng.toStore T f → T (opposite s.inc.side) = rung l q ++ ys → q.length < k →
    (∀ p ∈ q, reaches s.inc (s.eng.order p).toOrderInfo = true) →
    ∃ s' T' f' g, Engine.matchLevel client k s q.head? = some s' ∧ Passed n lo hi client s s' T' f f' g ∧
      (s'.inc.remaining = 0 ∨ T' (opposite s.inc.side) = ys) := by
  intro k
  induction k with
  | zero => intro _ _ _ _ _ _ _ _ hk; omega
  | succ k ih =>
    intro s T f l q ys h hT hk hc
    cases q with
    | nil => exact ⟨s, T, f, [], rfl, Passed.refl h, Or.inr (by simpa [rung] using hT)⟩
    | cons r q =>
      have hT : T (opposite s.inc.side) = (l, r :: q) :: ys := by simpa [rung] using hT
      obtain ⟨hhead, hprice, hnext⟩ := h.head hT
      have hk : q.length < k := by simpa using hk
      by_cases h0 : s.inc.remaining = 0
      · exact ⟨s, T, f, [], matchLevel_zero (Nat.succ_pos k) h0 _, Passed.refl h, Or.inl h0⟩
      unfold Engine.matchLevel
      simp only [List.head?_cons]
      rw [if_neg h0]
      have hgo : ¬ (s.inc.remaining = 0 ∨ reaches s.inc (s.eng.order r).toOrderInfo = false) := by
        simp [h0, hc r (by simp)]
      -- the pass goes on from the next order of the level
      have hon : ∀ (eng : Engine B) (inc : OrderInfo) (filled : Quantity), eng.toStore = s.eng.toStore →
          eng.cfg = s.eng.cfg → inc = { s.inc with remaining := inc.remaining } →
          (∀ rest, refMatch s.eng.cfg.stp client s.eng.untimed s.inc s.filled ((s.eng.order r).toOrderInfo :: rest) =
            (refMatch s.eng.cfg.stp client eng.untimed inc filled rest).after (s.eng.order r).toOrderInfo) →
          ∃ s' T' f' g, ((eng.drop r (s.eng.order r).id).bind fun st =>
              Engine.matchLevel client k ⟨eng.withStore st, inc, filled⟩ (s.eng.order r).next) = some s' ∧
            Passed n lo hi client s s' T' f f' g ∧ (s'.inc.remaining = 0 ∨ T' (opposite s.inc.side) = ys) := by
        intro eng inc filled heng hcfg hinc hres
        obtain ⟨st', l', T1, f1, hdrop, hp, hT1, hsame⟩ := Passed.drop h hT eng heng hcfg inc hinc filled hres
        have hside : inc.side = s.inc.side := by rw [hinc]
        have hc' : ∀ p ∈ q, reaches inc (st'.order p).toOrderInfo = true := by
          intro p hp'
          rw [hsame p hp', hinc]
          exact hc p (List.mem_cons_of_mem _ hp')
        obtain ⟨s', T', f', g, he, hp', hend⟩ := ih ⟨eng.withStore st', inc, filled⟩ T1 f1 l' q ys hp.rep
          (by rw [hside]; exact hT1) hk hc'
        rw [hside] at hend
        refine ⟨s', T', f', _, ?_, hp.trans hp', hend⟩
        rw [hdrop, hnext]
        exact he
      by_cases hstp : s.eng.cfg.stp ≠ .none ∧ (s.eng.order r).client = client
      · rw [if_pos hstp]
        by_cases hagg : s.eng.cfg.stp = .cancelAggressor
        · rw [if_pos hagg]
          exact ⟨_, T, f, [], rfl, Passed.aggressor h hT hgo hstp hagg, Or.inl rfl⟩
        · rw [if_neg hagg]
          refine hon (s.eng.withVars (s.eng.emitStpResting s.inc (s.eng.order r).toOrderInfo)) s.inc s.filled rfl rfl rfl
            fun rest => ?_
          rw [refMatch_resting hgo hstp hagg]
          simp [Engine.withVars]
      · rw [if_neg hstp]
        simp only [Option.bind_eq_bind]
        by_cases hfull : (s.eng.order r).remaining = min s.inc.remaining (s.eng.order r).remaining
        · rw [if_pos hfull]
          refine hon (s.eng.withVars (s.eng.emitTrade s.inc (s.eng.order r).toOrderInfo _))
            { s.inc with remaining := s.inc.remaining - _ } (s.filled + _) rfl rfl rfl fun rest => ?_
          rw [refMatch_full hgo hstp hfull]
          simp [Engine.withVars]
        · rw [if_neg hfull]
          have hzero := Quantity.sub_min_eq_zero hfull
          obtain ⟨st', T', f', hred, hp⟩ := Passed.part h hT hgo hstp rfl hfull
          refine ⟨_, T', f', [], Option.bind_eq_some_iff.mpr ⟨st', hred, ?_⟩, hp, Or.inl hzero⟩
          exact matchLevel_zero (by omega) hzero _

/-! ## The outer loop -/

/-- The match is over. -/
def Stopped (client : ClientId) (s : Engine.Matching B) (f : Flat) : Prop :=
  refMatch s.eng.cfg.stp client s.eng.untimed s.inc s.filled (f.side (opposite s.inc.side)) =
    ⟨s.eng.untimed, s.inc, s.filled, [], f.side (opposite s.inc.side)⟩

omit [Book B] [LawfulBook B] in
theorem stopped_of_zero (h : s.inc.remaining = 0) : Stopped client s f := refMatch_zero h _

theorem Rep.bestLevel (h : Rep n lo hi s.eng.toStore T f) (sd : Side) :
    Book.bestLevel s.eng.book sd = (T sd).head?.map (·.1) := by
  rw [LawfulBook.bestLevel_eq h.book, h.levels, List.head?_map]

theorem Rep.queue_le (h : Rep n lo hi s.eng.toStore T f) (sd : Side) : (ptrs (T sd)).length ≤ n := by
  have h1 := (slots_perm T sd).length_eq
  have h2 := h.length_le
  rw [List.length_append] at h1
  omega

theorem matchLoop_spec (client : ClientId) {bound : Nat} (hb : n < bound) : ∀ k (s : Engine.Matching B) T f,
    Rep n lo hi s.eng.toStore T f → (ptrs (T (opposite s.inc.side))).length < k →
    ∃ s' T' f' g, Engine.matchLoop client bound k s = some s' ∧ Passed n lo hi client s s' T' f f' g ∧
      Stopped client s' f' := by
  intro k
  induction k with
  | zero => intro _ _ _ _ hk; omega
  | succ k ih =>
    intro s T f h hk
    unfold Engine.matchLoop
    by_cases h0 : s.inc.remaining = 0
    · rw [if_pos h0]
      exact ⟨s, T, f, [], rfl, Passed.refl h, stopped_of_zero h0⟩
    rw [if_neg h0, h.bestLevel]
    cases hT : T (opposite s.inc.side) with
    | nil =>
      refine ⟨s, T, f, [], rfl, Passed.refl h, ?_⟩
      unfold Stopped
      rw [h.flat, hT]
      rfl
    | cons t ys =>
      obtain ⟨l, q⟩ := t
      have hmem : (l, q) ∈ T (opposite s.inc.side) := by rw [hT]; simp
      have hne := (h.side _).nonempty _ hmem
      have hq := (h.side _).queue _ hmem
      have hprice := (h.side _).price _ hmem
      simp only [List.head?_cons, Option.map_some]
      by_cases hstop : s.inc.type ≠ .market ∧ ¬ crosses s.inc.side s.inc.price l.price = true
      · rw [if_pos hstop]
        refine ⟨s, T, f, [], rfl, Passed.refl h, ?_⟩
        obtain ⟨r, q', rfl⟩ := List.exists_cons_of_ne_nil hne
        obtain ⟨hhead, hpr, _⟩ := h.head hT
        unfold Stopped
        rw [hhead, refMatch_ends]
        right
        unfold reaches
        rw [hpr]
        simp [hstop.1, hstop.2]
      · rw [if_neg hstop]
        have hreach : ∀ p ∈ q, reaches s.inc (s.eng.order p).toOrderInfo = true := by
          intro p hp
          have e : (s.eng.order p).toOrderInfo.price = l.price := hprice p hp
          unfold reaches
          rw [e]
          by_cases hm : s.inc.type = .market
          · simp [hm]
          · simpa [hm] using hstop
        have hlen : q.length < bound := by
          have := h.queue_le (opposite s.inc.side)
          rw [hT, ptrs_cons, List.length_append] at this
          simp only at this
          omega
        obtain ⟨s1, T1, f1, g1, he, hp, hend⟩ := matchLevel_spec client bound s T f l q ys h
          (by rw [hT]; simp [rung, hne]) hlen hreach
        have hql : 0 < q.length := List.length_pos_iff.mpr hne
        have hkl : q.length + (ptrs ys).length < k + 1 := by
          rw [hT, ptrs_cons, List.length_append] at hk; exact hk
        rw [hq.head]
        simp only [Option.bind_eq_bind, he, Option.bind_some]
        rcases hend with hz | hys
        · obtain ⟨k, rfl⟩ : ∃ j, k = j + 1 := ⟨k - 1, by omega⟩
          refine ⟨s1, T1, f1, g1, ?_, hp, stopped_of_zero hz⟩
          unfold Engine.matchLoop
          rw [if_pos hz]
        · obtain ⟨s', T', f', g, he', hp', hst⟩ := ih s1 T1 f1 hp.rep (by rw [hp.side, hys]; omega)
          exact ⟨s', T', f', _, he', hp.trans hp', hst⟩

/-- `match` ends, and is the reference matcher on the flat list of the opposite side. -/
theorem matchOrder_spec {e : Engine B} (h : Rep n lo hi e.toStore T f) (inc : OrderInfo) (client : ClientId) :
    ∃ s' T' f', e.matchOrder inc client = some s' ∧ Rep n lo hi s'.eng.toStore T' f' ∧ s'.eng.cfg = e.cfg ∧
      refMatch e.cfg.stp client e.untimed inc 0 (f.side (opposite inc.side)) =
        ⟨s'.eng.untimed, s'.inc, s'.filled,
          (refMatch e.cfg.stp client e.untimed inc 0 (f.side (opposite inc.side))).gone, f'.side (opposite inc.side)⟩ ∧
      Took (opposite inc.side) f f' (refMatch e.cfg.stp client e.untimed inc 0 (f.side (opposite inc.side))).gone := by
  let s : Engine.Matching B := ⟨e, inc, 0⟩
  have hrep : Rep n lo hi s.eng.toStore T f := h
  have hk : (ptrs (T (opposite s.inc.side))).length < n + 2 := by
    have := hrep.queue_le (opposite s.inc.side)
    omega
  obtain ⟨s', T', f', g, he, hp, hst⟩ := matchLoop_spec client (Nat.lt_succ_self n) (n + 2) s T f hrep hk
  have hr : refMatch e.cfg.stp client e.untimed inc 0 (f.side (opposite inc.side)) =
      ⟨s'.eng.untimed, s'.inc, s'.filled, g, f'.side (opposite inc.side)⟩ := by
    have h1 := hp.resumes
    unfold Resumes at h1
    unfold Stopped at hst
    rw [hp.side, hp.cfg] at hst
    rw [show s.inc = inc from rfl] at h1 hst
    rw [hst] at h1
    rw [show s.eng = e from rfl] at h1
    rw [h1]
    unfold Matched.behind
    simp
  refine ⟨s', T', f', ?_, hp.rep, hp.cfg, ?_, ?_⟩
  · unfold Engine.matchOrder
    rw [h.capacity]
    exact he
  · rw [hr]
  · rw [hr]; exact hp.took

end Lob
