/-
  Lob.Laws.Flow — the generated order flow is well formed.

  Whatever is drawn, one call of `next` sends a New, or cancels or modifies an order it
  tracks (`Emits`, read off the code in `next_emits`). A tracked order is a Limit New sent
  before and not cancelled since, under an id of its own, so by induction over the calls
  every command of a run is well formed (`flow_well_formed`).

  Two ends of the machine types are left out. At `min_price = kNoPrice` a clamped limit
  price is the sentinel itself (`limit_at_sentinel`), and the id counter is back at 0 after
  2 ^ 64 - 1 News (`ids_wrap`). The walk of the mid stays in the band (`run_mid`).
-/

import Lob.Flow.OrderFlow

namespace Lob

/-- Both ends moved in by a margin that leaves room, in 64 bits. -/
theorem margin_band {lo hi margin : Int} (hpos : 0 ≤ margin) (hwidth : 2 * margin ≤ hi - lo) (hlow : kNoPrice ≤ lo)
    (hhigh : hi ≤ kMaxPrice) :
    lo ≤ toPrice (lo + margin) ∧ toPrice (lo + margin) ≤ toPrice (hi - margin) ∧ toPrice (hi - margin) ≤ hi := by
  have hmin : (-9223372036854775808 : Int) ≤ lo := hlow
  have hmax : hi ≤ (9223372036854775807 : Int) := hhigh
  have hlo : Int.bmod (lo + margin) (2 ^ 64) = lo + margin := Int.bmod_eq_of_le (by omega) (by omega)
  have hhi : Int.bmod (hi - margin) (2 ^ 64) = hi - margin := Int.bmod_eq_of_le (by omega) (by omega)
  unfold toPrice
  rw [hlo, hhi]
  refine ⟨?_, ?_, ?_⟩
  · show (lo : Int) ≤ lo + margin
    omega
  · show (lo + margin : Int) ≤ hi - margin
    omega
  · show (hi - margin : Int) ≤ hi
    omega

namespace FlowConfig

variable {F : Type} [OfScientific F]

/-- What the generator is configured with. -/
structure Valid (cfg : FlowConfig F) : Prop where
  depth : 1 ≤ cfg.depthTicks
  refLow : cfg.minPrice ≤ cfg.refPrice
  refHigh : cfg.refPrice ≤ cfg.maxPrice
  width : 2 * (cfg.depthTicks + 4) ≤ cfg.maxPrice - cfg.minPrice
  qty : cfg.minQty ≤ cfg.maxQty

def InBand (cfg : FlowConfig F) (p : Price) : Prop := cfg.minPrice ≤ p ∧ p ≤ cfg.maxPrice

def InLot (cfg : FlowConfig F) (q : Quantity) : Prop := cfg.minQty ≤ q ∧ q ≤ cfg.maxQty

/-- A limit price in a band above the sentinel. -/
theorem InBand.limit {cfg : FlowConfig F} {p : Price} (h : cfg.InBand p) (hmin : kNoPrice < cfg.minPrice) :
    (p = kNoPrice ↔ OrderType.limit = .market) ∧ (OrderType.limit ≠ .market → cfg.InBand p) := by
  refine ⟨⟨?_, ?_⟩, fun _ => h⟩
  · intro hno
    have hlow := h.1
    rw [hno] at hlow
    exact absurd hmin (not_lt.mpr hlow)
  · intro hno
    cases hno

/-- Where a step of the mid is clamped to. -/
def midLow (cfg : FlowConfig F) : Price := toPrice (cfg.minPrice + Int.bmod (cfg.depthTicks + 4) (2 ^ 32))

def midHigh (cfg : FlowConfig F) : Price := toPrice (cfg.maxPrice - Int.bmod (cfg.depthTicks + 4) (2 ^ 32))

/-- The band and the depth are values of their types, and the margin is computed in `int`. -/
structure Fits (cfg : FlowConfig F) : Prop where
  low : kNoPrice ≤ cfg.minPrice
  high : cfg.maxPrice ≤ kMaxPrice
  depth : cfg.depthTicks + 4 < 2 ^ 31

theorem Valid.band {cfg : FlowConfig F} (h : cfg.Valid) : cfg.minPrice ≤ cfg.maxPrice := le_trans h.refLow h.refHigh

/-- The mid's own band is not empty, as `std::clamp` asks, and lies in the band. -/
theorem Valid.mid_band {cfg : FlowConfig F} (h : cfg.Valid) (hf : cfg.Fits) :
    cfg.minPrice ≤ cfg.midLow ∧ cfg.midLow ≤ cfg.midHigh ∧ cfg.midHigh ≤ cfg.maxPrice := by
  have hdepth := h.depth
  have hint := hf.depth
  have hmargin : Int.bmod (cfg.depthTicks + 4) (2 ^ 32) = cfg.depthTicks + 4 := Int.bmod_eq_of_le (by omega) (by omega)
  unfold midLow midHigh
  rw [hmargin]
  exact margin_band (by omega) h.width hf.low hf.high

end FlowConfig

/-! ## Commands in their order -/

def news (cs : List Command) : List Command := cs.filter fun c => c.type = .new

/-- Some earlier Limit New has this id and client, and no earlier Cancel the id. -/
def Outstanding (cs : List Command) (id : OrderId) (client : ClientId) : Prop :=
  (∃ c ∈ cs, c.type = .new ∧ c.ordType = .limit ∧ c.id = id ∧ c.client = client) ∧
    ∀ c ∈ cs, c.type = .cancel → c.id ≠ id

structure WellFormed {F : Type} [OfScientific F] (cfg : FlowConfig F) (cs : List Command) : Prop where
  ids : (news cs).map (fun c => c.id.toNat) = (List.range (news cs).length).map (· + 1)
  prices : ∀ c ∈ cs, c.type = .new →
    (c.price = kNoPrice ↔ c.ordType = .market) ∧ (c.ordType ≠ .market → cfg.InBand c.price)
  lots : ∀ c ∈ cs, c.type ≠ .cancel → cfg.InLot c.quantity
  cancels : ∀ before c, before ++ [c] <+: cs → c.type = .cancel → Outstanding before c.id c.client
  modifies : ∀ before c, before ++ [c] <+: cs → c.type = .modify →
    Outstanding before c.id c.client ∧ (c.price = kNoPrice ∨ cfg.InBand c.price)

section
variable {F : Type} [OfScientific F] {cfg : FlowConfig F} {cs : List Command} {c : Command} {id : OrderId}
  {client : ClientId}

theorem news_concat (cs : List Command) (c : Command) :
    news (cs ++ [c]) = news cs ++ if c.type = .new then [c] else [] := by
  unfold news
  simp only [List.filter_append, List.filter_cons, List.filter_nil, decide_eq_true_eq]

theorem news_length_le (cs : List Command) : (news cs).length ≤ cs.length := List.length_filter_le _ _

theorem WellFormed.nil (cfg : FlowConfig F) : WellFormed cfg [] := by
  have hno : ∀ (before : List Command) (c : Command), ¬ before ++ [c] <+: [] := by
    intro before c hpre
    have hlen := hpre.length_le
    rw [List.length_append] at hlen
    simp at hlen
  refine ⟨rfl, ?_, ?_, ?_, ?_⟩
  · intro c hc; cases hc
  · intro c hc; cases hc
  · intro before c hpre; exact absurd hpre (hno before c)
  · intro before c hpre; exact absurd hpre (hno before c)

/-- Ids of News so far are among the numbers given out. -/
theorem WellFormed.id_le (h : WellFormed cfg cs) (hc : c ∈ cs) (hnew : c.type = .new) : c.id.toNat ≤ (news cs).length := by
  have hmem : c.id.toNat ∈ (news cs).map fun c => c.id.toNat :=
    List.mem_map_of_mem (List.mem_filter.mpr ⟨hc, decide_eq_true hnew⟩)
  rw [h.ids, List.mem_map] at hmem
  obtain ⟨k, hk, hid⟩ := hmem
  rw [List.mem_range] at hk
  omega

theorem Outstanding.id_le (ho : Outstanding cs id client) (h : WellFormed cfg cs) : id.toNat ≤ (news cs).length := by
  obtain ⟨⟨c, hc, hnew, -, rfl, -⟩, -⟩ := ho
  exact h.id_le hc hnew

/-- Cancelled ids too. -/
theorem WellFormed.cancel_id_le (h : WellFormed cfg cs) (hc : c ∈ cs) (hcancel : c.type = .cancel) :
    c.id.toNat ≤ (news cs).length := by
  obtain ⟨before, rest, rfl⟩ := List.append_of_mem hc
  have hpre : before ++ [c] <+: before ++ c :: rest := ⟨rest, by rw [List.append_assoc]; rfl⟩
  obtain ⟨⟨n, hn, hnew, -, hid, -⟩, -⟩ := h.cancels before c hpre hcancel
  rw [← hid]
  exact h.id_le (List.mem_append_left _ hn) hnew

/-- An outstanding order is so until its id is cancelled. -/
theorem Outstanding.concat (ho : Outstanding cs id client) (hc : c.type = .cancel → c.id ≠ id) :
    Outstanding (cs ++ [c]) id client := by
  obtain ⟨⟨n, hn, hlimit⟩, hcancels⟩ := ho
  refine ⟨⟨n, List.mem_append_left _ hn, hlimit⟩, ?_⟩
  intro c' hc' hcancel
  rcases List.mem_append.mp hc' with hin | hlast
  · exact hcancels c' hin hcancel
  · rw [List.mem_singleton] at hlast
    subst hlast
    exact hc hcancel

/-- One command more. -/
theorem WellFormed.concat (h : WellFormed cfg cs) (hid : c.type = .new → c.id.toNat = (news cs).length + 1)
    (hprice : c.type = .new → (c.price = kNoPrice ↔ c.ordType = .market) ∧ (c.ordType ≠ .market → cfg.InBand c.price))
    (hlot : c.type ≠ .cancel → cfg.InLot c.quantity) (hcancel : c.type = .cancel → Outstanding cs c.id c.client)
    (hmodify : c.type = .modify → Outstanding cs c.id c.client ∧ (c.price = kNoPrice ∨ cfg.InBand c.price)) :
    WellFormed cfg (cs ++ [c]) := by
  refine ⟨?_, ?_, ?_, ?_, ?_⟩
  · rw [news_concat]
    by_cases hnew : c.type = .new
    · rw [if_pos hnew, List.map_append, h.ids, List.length_append, List.length_singleton, List.range_succ,
        List.map_append, List.map_singleton, List.map_singleton, hid hnew]
    · rw [if_neg hnew, List.append_nil]
      exact h.ids
  · intro x hx
    rcases List.mem_append.mp hx with hin | hlast
    · exact h.prices x hin
    · rw [List.mem_singleton] at hlast
      subst hlast
      exact hprice
  · intro x hx
    rcases List.mem_append.mp hx with hin | hlast
    · exact h.lots x hin
    · rw [List.mem_singleton] at hlast
      subst hlast
      exact hlot
  · intro before x hpre
    rcases List.prefix_concat_iff.mp hpre with hall | hbefore
    · obtain ⟨rfl, hx⟩ := List.append_inj' hall rfl
      cases hx
      exact hcancel
    · exact h.cancels before x hbefore
  · intro before x hpre
    rcases List.prefix_concat_iff.mp hpre with hall | hbefore
    · obtain ⟨rfl, hx⟩ := List.append_inj' hall rfl
      cases hx
      exact hmodify
    · exact h.modifies before x hbefore

theorem WellFormed.concat_new (h : WellFormed cfg cs) (ht : c.type = .new) (hid : c.id.toNat = (news cs).length + 1)
    (hprice : (c.price = kNoPrice ↔ c.ordType = .market) ∧ (c.ordType ≠ .market → cfg.InBand c.price))
    (hlot : cfg.InLot c.quantity) : WellFormed cfg (cs ++ [c]) := by
  refine h.concat (fun _ => hid) (fun _ => hprice) (fun _ => hlot) ?_ ?_
  · intro hno; rw [ht] at hno; cases hno
  · intro hno; rw [ht] at hno; cases hno

theorem WellFormed.concat_cancel (h : WellFormed cfg cs) (ht : c.type = .cancel) (ho : Outstanding cs c.id c.client) :
    WellFormed cfg (cs ++ [c]) := by
  refine h.concat ?_ ?_ (fun hno => absurd ht hno) (fun _ => ho) ?_
  · intro hno; rw [ht] at hno; cases hno
  · intro hno; rw [ht] at hno; cases hno
  · intro hno; rw [ht] at hno; cases hno

theorem WellFormed.concat_modify (h : WellFormed cfg cs) (ht : c.type = .modify) (ho : Outstanding cs c.id c.client)
    (hprice : c.price = kNoPrice ∨ cfg.InBand c.price) (hlot : cfg.InLot c.quantity) : WellFormed cfg (cs ++ [c]) := by
  refine h.concat ?_ ?_ (fun _ => hlot) ?_ (fun _ => ⟨ho, hprice⟩)
  · intro hno; rw [ht] at hno; cases hno
  · intro hno; rw [ht] at hno; cases hno
  · intro hno; rw [ht] at hno; cases hno

/-- Numbers from 1 on fit the type of ids for so long only. -/
theorem WellFormed.news_lt (h : WellFormed cfg cs) : (news cs).length < 2 ^ 64 := by
  by_contra hge
  have hmem : 2 ^ 64 ∈ (List.range (news cs).length).map (· + 1) :=
    List.mem_map.mpr ⟨2 ^ 64 - 1, List.mem_range.mpr (by omega), rfl⟩
  rw [← h.ids, List.mem_map] at hmem
  obtain ⟨c, -, hid⟩ := hmem
  have hlt := c.id.toNat_lt
  omega

theorem news_concat_of_ne (ht : c.type ≠ .new) : news (cs ++ [c]) = news cs := by
  rw [news_concat, if_neg ht, List.append_nil]

end

namespace OrderFlowGenerator

variable {G F : Type} [OfScientific F] {d : Draws G F} {s : OrderFlowGenerator G F}

/-! ## One call -/

/-- The mid is as it was, or clamped into its band. -/
def Drifts (s : OrderFlowGenerator G F) (mid : Price) : Prop :=
  mid = s.mid ∨ ∃ v, mid = clamp v s.cfg.midLow s.cfg.midHigh

/-- What one call of `next` can do. -/
inductive Emits (s : OrderFlowGenerator G F) : Command × OrderFlowGenerator G F → Prop
  | market (g : G) (mid : Price) (side : Side) (client : ClientId) (qty : Quantity) : s.Drifts mid → s.cfg.InLot qty →
      Emits s (Command.makeNew s.nextId client side .market kNoPrice qty 0,
        { s with rng := g, mid := mid, nextId := s.nextId + 1 })
  | aggressive (g : G) (mid : Price) (side : Side) (client : ClientId) (qty : Quantity) (price : Price) :
      s.Drifts mid → s.cfg.InLot qty → s.cfg.InBand price →
      Emits s (Command.makeNew s.nextId client side .limit price qty 0,
        { s with rng := g, mid := mid, nextId := s.nextId + 1 })
  | passive (g : G) (mid : Price) (side : Side) (client : ClientId) (qty : Quantity) (price : Price) :
      s.Drifts mid → s.cfg.InLot qty → s.cfg.InBand price → s.live.length < max s.cfg.maxLive.toNat 1 →
      Emits s (Command.makeNew s.nextId client side .limit price qty 0,
        { s with rng := g, mid := mid, nextId := s.nextId + 1, live := s.live ++ [⟨s.nextId, client⟩] })
  | cancel (g : G) (i : Nat) (v : Live) : s.live[i]? = some v →
      Emits s (Command.makeCancel v.id v.client 0, { s with rng := g, live := swapRemove s.live i })
  | modify (g : G) (v : Live) (price : Price) (qty : Quantity) : v ∈ s.live → s.cfg.InLot qty →
      (price = kNoPrice ∨ s.cfg.InBand price) →
      Emits s (Command.makeModify v.id v.client price qty 0, { s with rng := g })

theorem drawQty_inLot (h : s.cfg.minQty ≤ s.cfg.maxQty) : s.cfg.InLot (s.drawQty d).1 := by
  have hle := UInt64.le_iff_toNat_le.mp h
  have hmax := s.cfg.maxQty.toNat_lt
  have hspan : (s.cfg.maxQty - s.cfg.minQty + 1).toNat = (s.cfg.maxQty.toNat - s.cfg.minQty.toNat + 1) % 2 ^ 64 := by
    rw [UInt64.toNat_add, UInt64.toNat_sub_of_le _ _ h]
    rfl
  have hdraw : (d.range s.rng (s.cfg.maxQty - s.cfg.minQty + 1)).1.toNat ≤ s.cfg.maxQty.toNat - s.cfg.minQty.toNat := by
    by_cases hzero : s.cfg.maxQty - s.cfg.minQty + 1 = 0
    · -- the whole range of the type: the width is 0 and the draw with it
      rw [hzero, d.range_zero]
      exact Nat.zero_le _
    · have hlt := UInt64.lt_iff_toNat_lt.mp (d.range_lt s.rng _ hzero)
      have hmod := Nat.mod_le (s.cfg.maxQty.toNat - s.cfg.minQty.toNat + 1) (2 ^ 64)
      omega
  have hsum : (s.drawQty d).1.toNat =
      s.cfg.minQty.toNat + (d.range s.rng (s.cfg.maxQty - s.cfg.minQty + 1)).1.toNat := by
    show (s.cfg.minQty + (d.range s.rng _).1).toNat = _
    rw [UInt64.toNat_add, Nat.mod_eq_of_lt (by omega)]
  constructor
  · rw [UInt64.le_iff_toNat_le, hsum]
    omega
  · rw [UInt64.le_iff_toNat_le, hsum]
    omega

/-! A draw changes nothing but the state of the draws. -/

theorem unit_eq (d : Draws G F) (s : OrderFlowGenerator G F) : ∃ u g, s.unit d = (u, { s with rng := g }) := ⟨_, _, rfl⟩

theorem range_eq (d : Draws G F) (s : OrderFlowGenerator G F) (n : UInt64) :
    ∃ r g, s.range d n = (r, { s with rng := g }) := ⟨_, _, rfl⟩

theorem drawOff_eq (d : Draws G F) (s : OrderFlowGenerator G F) : ∃ off g, s.drawOff d = (off, { s with rng := g }) :=
  ⟨_, _, rfl⟩

theorem drawQty_eq (d : Draws G F) (s : OrderFlowGenerator G F) (h : s.cfg.minQty ≤ s.cfg.maxQty) :
    ∃ qty g, s.drawQty d = (qty, { s with rng := g }) ∧ s.cfg.InLot qty := ⟨_, _, rfl, drawQty_inLot h⟩

omit [OfScientific F] in
/-- The index drawn is one of the list. -/
theorem pick_eq (d : Draws G F) (g : G) {live : List Live} (hne : live ≠ []) (hlen : live.length < 2 ^ 64) :
    ∃ v, live[(d.range g (UInt64.ofNat live.length)).1.toNat]? = some v := by
  have hsize : (UInt64.ofNat live.length).toNat = live.length := UInt64.toNat_ofNat_of_lt' hlen
  have hpos : UInt64.ofNat live.length ≠ 0 := by
    intro hzero
    rw [hzero] at hsize
    exact hne (List.length_eq_zero_iff.mp hsize.symm)
  have hlt := UInt64.lt_iff_toNat_lt.mp (d.range_lt g _ hpos)
  rw [hsize] at hlt
  exact ⟨_, List.getElem?_eq_getElem hlt⟩

theorem untrackRandom_eq (d : Draws G F) (s : OrderFlowGenerator G F) (hne : s.live ≠ []) (hlen : s.live.length < 2 ^ 64) :
    ∃ g i v, s.live[i]? = some v ∧ s.untrackRandom d = (some v, { s with rng := g, live := swapRemove s.live i }) := by
  obtain ⟨v, hv⟩ := pick_eq d s.rng hne hlen
  refine ⟨(d.range s.rng (UInt64.ofNat s.live.length)).2, _, v, hv, ?_⟩
  unfold untrackRandom
  rw [if_neg (by rw [List.isEmpty_iff]; exact hne)]
  exact Prod.ext hv rfl

theorem peekRandom_eq (d : Draws G F) (s : OrderFlowGenerator G F) (hne : s.live ≠ []) (hlen : s.live.length < 2 ^ 64) :
    ∃ g v, v ∈ s.live ∧ s.peekRandom d = (some v, { s with rng := g }) := by
  obtain ⟨v, hv⟩ := pick_eq d s.rng hne hlen
  refine ⟨(d.range s.rng (UInt64.ofNat s.live.length)).2, v, List.mem_of_getElem? hv, ?_⟩
  unfold peekRandom
  rw [if_neg (by rw [List.isEmpty_iff]; exact hne)]
  exact Prod.ext hv rfl

/-! ## What is tracked -/

/-- Swap-removal takes out the order at the index, and only that. -/
theorem swapRemove_perm {live : List Live} {i : Nat} {v : Live} (hv : live[i]? = some v) :
    live.Perm (v :: swapRemove live i) := by
  have hback : live ≠ [] := by
    intro hnil
    rw [hnil] at hv
    cases hv
  obtain ⟨xs, a, rfl⟩ : ∃ xs a, live = xs ++ [a] := ⟨_, _, (List.dropLast_concat_getLast hback).symm⟩
  unfold swapRemove
  rw [List.getLast?_concat]
  dsimp only
  by_cases hin : i < xs.length
  · -- the last order takes the place of the one at `i`
    rw [List.getElem?_append_left hin] at hv
    obtain ⟨_, hget⟩ := List.getElem?_eq_some_iff.mp hv
    obtain ⟨ys, zs, hsplit, hlen⟩ : ∃ ys zs, xs = ys ++ v :: zs ∧ ys.length = i := by
      refine ⟨xs.take i, xs.drop (i + 1), ?_, List.length_take_of_le (by omega)⟩
      rw [← hget, List.getElem_cons_drop, List.take_append_drop]
    rw [List.set_append_left _ _ hin, List.dropLast_concat, hsplit, List.set_append_right _ _ (by omega), hlen,
      Nat.sub_self, List.set_cons_zero]
    have hout : (ys ++ v :: zs).Perm (v :: (ys ++ zs)) := List.perm_middle
    have hback' : (ys ++ a :: zs).Perm (a :: (ys ++ zs)) := List.perm_middle
    have hrest : (ys ++ zs ++ [a]).Perm (ys ++ a :: zs) := (List.perm_append_singleton a _).trans hback'.symm
    exact (hout.append_right [a]).trans (hrest.cons v)
  · -- the last order itself
    have hi : i = xs.length := by
      obtain ⟨hlt, -⟩ := List.getElem?_eq_some_iff.mp hv
      rw [List.length_append, List.length_singleton] at hlt
      omega
    subst hi
    rw [List.getElem?_concat_length, Option.some.injEq] at hv
    subst hv
    rw [List.set_append_right _ _ (Nat.le_refl _), Nat.sub_self, List.set_cons_zero, List.dropLast_concat]
    exact List.perm_append_singleton _ _

/-- The generator after sending `cs`. -/
structure Tracks (cfg : FlowConfig F) (cs : List Command) (s : OrderFlowGenerator G F) : Prop where
  cfg_eq : s.cfg = cfg
  nextId : s.nextId = UInt64.ofNat ((news cs).length + 1)
  outstanding : ∀ v ∈ s.live, Outstanding cs v.id v.client
  distinct : (s.live.map Live.id).Nodup
  bounded : s.live.length ≤ max cfg.maxLive.toNat 1
  formed : WellFormed cfg cs

variable {cfg : FlowConfig F} {cs : List Command}

theorem make_tracks (cfg : FlowConfig F) (g : G) : Tracks cfg [] (make cfg g) where
  cfg_eq := rfl
  nextId := rfl
  outstanding := by intro v hv; cases hv
  distinct := List.nodup_nil
  bounded := Nat.zero_le _
  formed := WellFormed.nil cfg

/-- The list is never longer than its index type counts. -/
theorem Tracks.live_lt (h : Tracks cfg cs s) : s.live.length < 2 ^ 64 := by
  have hbound := h.bounded
  have hmax := cfg.maxLive.toNat_lt
  omega

/-- A New, whether it is tracked or not. -/
theorem Tracks.new (h : Tracks cfg cs s) {c : Command} (hnew : c.type = .new) (hid : c.id = s.nextId)
    (hk : (news cs).length + 1 < 2 ^ 64)
    (hprice : (c.price = kNoPrice ↔ c.ordType = .market) ∧ (c.ordType ≠ .market → cfg.InBand c.price))
    (hlot : cfg.InLot c.quantity) :
    WellFormed cfg (cs ++ [c]) ∧
      s.nextId + 1 = UInt64.ofNat ((news (cs ++ [c])).length + 1) ∧ ∀ v ∈ s.live, Outstanding (cs ++ [c]) v.id v.client := by
  have hnat : c.id.toNat = (news cs).length + 1 := by
    rw [hid, h.nextId]
    exact UInt64.toNat_ofNat_of_lt' hk
  refine ⟨h.formed.concat_new hnew hnat hprice hlot, ?_, ?_⟩
  · rw [news_concat, if_pos hnew, List.length_append, List.length_singleton, h.nextId]
    exact (UInt64.ofNat_add _ 1).symm
  · intro v hv
    refine (h.outstanding v hv).concat ?_
    intro hcancel
    rw [hnew] at hcancel
    cases hcancel

/-- The next id is above all ids so far. -/
theorem Tracks.fresh (h : Tracks cfg cs s) (hk : (news cs).length + 1 < 2 ^ 64) {id : OrderId}
    (hle : id.toNat ≤ (news cs).length) : id ≠ s.nextId := by
  intro heq
  have hnat : s.nextId.toNat = (news cs).length + 1 := by
    rw [h.nextId]
    exact UInt64.toNat_ofNat_of_lt' hk
  rw [heq] at hle
  omega

theorem Tracks.outstanding_new (h : Tracks cfg cs s) (hk : (news cs).length + 1 < 2 ^ 64) {c : Command}
    (hnew : c.type = .new) (hlimit : c.ordType = .limit) (hid : c.id = s.nextId) :
    Outstanding (cs ++ [c]) s.nextId c.client := by
  refine ⟨⟨c, List.mem_append_right _ (List.mem_singleton_self c), hnew, hlimit, hid, rfl⟩, ?_⟩
  intro c' hc' hcancel
  rcases List.mem_append.mp hc' with hin | hlast
  · exact h.fresh hk (h.formed.cancel_id_le hin hcancel)
  · rw [List.mem_singleton] at hlast
    subst hlast
    rw [hnew] at hcancel
    cases hcancel

theorem Tracks.distinct_new (h : Tracks cfg cs s) (hk : (news cs).length + 1 < 2 ^ 64) (client : ClientId) :
    ((s.live ++ [(⟨s.nextId, client⟩ : Live)]).map Live.id).Nodup := by
  rw [List.map_append, List.nodup_append]
  refine ⟨h.distinct, by simp, ?_⟩
  intro id hin id' hnew
  obtain ⟨v, hv, rfl⟩ := List.mem_map.mp hin
  rw [List.map_singleton, List.mem_singleton] at hnew
  subst hnew
  exact h.fresh hk ((h.outstanding v hv).id_le h.formed)

theorem Tracks.step (h : Tracks cfg cs s) (hmin : kNoPrice < cfg.minPrice) {r : Command × OrderFlowGenerator G F}
    (he : s.Emits r) (hk : (news (cs ++ [r.1])).length < 2 ^ 64) : Tracks cfg (cs ++ [r.1]) r.2 := by
  have hcfg := h.cfg_eq
  have hcount : r.1.type = .new → (news cs).length + 1 < 2 ^ 64 := by
    intro hnew
    rw [news_concat, if_pos hnew, List.length_append, List.length_singleton] at hk
    exact hk
  cases he with
  | market g mid side client qty hmid hlot =>
    rw [hcfg] at hlot
    obtain ⟨hformed, hnext, hout⟩ := h.new (c := Command.makeNew s.nextId client side .market kNoPrice qty 0) rfl rfl
      (hcount rfl) ⟨⟨fun _ => rfl, fun _ => rfl⟩, fun hno => absurd rfl hno⟩ hlot
    exact ⟨hcfg, hnext, hout, h.distinct, h.bounded, hformed⟩
  | aggressive g mid side client qty price hmid hlot hband =>
    rw [hcfg] at hlot hband
    obtain ⟨hformed, hnext, hout⟩ := h.new (c := Command.makeNew s.nextId client side .limit price qty 0) rfl rfl
      (hcount rfl) (hband.limit hmin) hlot
    exact ⟨hcfg, hnext, hout, h.distinct, h.bounded, hformed⟩
  | passive g mid side client qty price hmid hlot hband hroom =>
    rw [hcfg] at hlot hband hroom
    obtain ⟨hformed, hnext, hout⟩ := h.new (c := Command.makeNew s.nextId client side .limit price qty 0) rfl rfl
      (hcount rfl) (hband.limit hmin) hlot
    refine ⟨hcfg, hnext, ?_, h.distinct_new (hcount rfl) client, ?_, hformed⟩
    · intro v hv
      rcases List.mem_append.mp hv with hin | hlast
      · exact hout v hin
      · rw [List.mem_singleton] at hlast
        subst hlast
        exact h.outstanding_new (hcount rfl) rfl rfl rfl
    · show (s.live ++ [(⟨s.nextId, client⟩ : Live)]).length ≤ _
      rw [List.length_append, List.length_singleton]
      omega
  | cancel g i v hv =>
    have htype : (Command.makeCancel v.id v.client 0).type = .cancel := rfl
    have hperm := swapRemove_perm hv
    have hids := (hperm.map Live.id).nodup_iff.mp h.distinct
    rw [List.map_cons, List.nodup_cons] at hids
    refine ⟨hcfg, ?_, ?_, hids.2, ?_, h.formed.concat_cancel htype (h.outstanding v (List.mem_of_getElem? hv))⟩
    · rw [news_concat_of_ne (by rw [htype]; decide)]
      exact h.nextId
    · intro w hw
      refine (h.outstanding w (hperm.mem_iff.mpr (List.mem_cons_of_mem _ hw))).concat ?_
      intro _ heq
      have hid : v.id = w.id := heq
      rw [hid] at hids
      exact hids.1 (List.mem_map_of_mem hw)
    · have hlen := hperm.length_eq
      have hbound := h.bounded
      rw [List.length_cons] at hlen
      show (swapRemove s.live i).length ≤ _
      omega
  | modify g v price qty hv hlot hprice =>
    have htype : (Command.makeModify v.id v.client price qty 0).type = .modify := rfl
    rw [hcfg] at hlot hprice
    refine ⟨hcfg, ?_, ?_, h.distinct, h.bounded, h.formed.concat_modify htype (h.outstanding v hv) hprice hlot⟩
    · rw [news_concat_of_ne (by rw [htype]; decide)]
      exact h.nextId
    · intro w hw
      refine (h.outstanding w hw).concat ?_
      intro hno
      rw [htype] at hno
      cases hno

theorem Drifts.inBand {mid : Price} (h : s.Drifts mid) (hcfg : s.cfg = cfg) (hv : cfg.Valid) (hf : cfg.Fits)
    (hmid : cfg.InBand s.mid) : cfg.InBand mid := by
  subst hcfg
  obtain ⟨hlow, hroom, hhigh⟩ := hv.mid_band hf
  rcases h with rfl | ⟨v, rfl⟩
  · exact hmid
  · obtain ⟨hlo, hhi⟩ := clamp_mem (v := v) hroom
    exact ⟨le_trans hlow hlo, le_trans hhi hhigh⟩

/-! ## The calls of the code -/

variable [LT F] [DecidableLT F]

theorem drift_eq (d : Draws G F) (s : OrderFlowGenerator G F) :
    ∃ g mid, s.drift d = { s with rng := g, mid := mid } ∧ s.Drifts mid := by
  unfold drift
  dsimp only
  split
  · exact ⟨_, _, rfl, Or.inr ⟨_, rfl⟩⟩
  · exact ⟨_, _, rfl, Or.inl rfl⟩

theorem makeNew_emits (hband : s.cfg.minPrice ≤ s.cfg.maxPrice) (hqty : s.cfg.minQty ≤ s.cfg.maxQty)
    (hroom : s.live.length < max s.cfg.maxLive.toNat 1) (g : G) :
    s.Emits (OrderFlowGenerator.makeNew d { s with rng := g }) := by
  unfold makeNew
  obtain ⟨g, mid, hdrift, hmid⟩ := drift_eq d { s with rng := g }
  rw [hdrift]
  dsimp only
  obtain ⟨u, g, hside⟩ := unit_eq d { s with rng := g, mid := mid }
  rw [hside]
  dsimp only
  obtain ⟨client, g, hclient⟩ := range_eq d { s with rng := g, mid := mid } s.cfg.clients.toUInt64
  rw [hclient]
  dsimp only
  obtain ⟨qty, g, hdraw, hlot⟩ := drawQty_eq d { s with rng := g, mid := mid } hqty
  rw [hdraw]
  dsimp only
  obtain ⟨u', g, hmarket⟩ := unit_eq d { s with rng := g, mid := mid, nextId := s.nextId + 1 }
  rw [hmarket]
  dsimp only
  split
  · exact Emits.market (s := s) _ _ _ _ _ hmid hlot
  · obtain ⟨off, g, hoff⟩ := drawOff_eq d { s with rng := g, mid := mid, nextId := s.nextId + 1 }
    rw [hoff]
    dsimp only
    obtain ⟨a, g, haggressive⟩ := unit_eq d { s with rng := g, mid := mid, nextId := s.nextId + 1 }
    rw [haggressive]
    dsimp only
    rcases Bool.eq_false_or_eq_true (decide (a < s.cfg.pAggressive)) with hagg | hagg
    · simp only [hagg, if_true]
      exact Emits.aggressive (s := s) _ _ _ _ _ _ hmid hlot (clamp_mem hband)
    · simp only [hagg, Bool.false_eq_true, if_false]
      exact Emits.passive (s := s) _ _ _ _ _ _ hmid hlot (clamp_mem hband) hroom

variable [Add F]

theorem next_emits (d : Draws G F) (hband : s.cfg.minPrice ≤ s.cfg.maxPrice) (hqty : s.cfg.minQty ≤ s.cfg.maxQty)
    (hlen : s.live.length < 2 ^ 64) : s.Emits (s.next d) := by
  have hempty : s.live = [] → s.live.length < max s.cfg.maxLive.toNat 1 := by
    intro hnil
    rw [hnil, List.length_nil]
    omega
  unfold next
  obtain ⟨u, g, hu⟩ := unit_eq d s
  rw [hu]
  dsimp only
  split
  · rename_i hnew
    simp only [Bool.and_eq_true, Bool.not_eq_true', decide_eq_false_iff_not] at hnew
    exact makeNew_emits hband hqty (by omega) g
  · split
    · by_cases hnil : s.live = []
      · unfold untrackRandom
        rw [if_pos (by rw [List.isEmpty_iff]; exact hnil)]
        exact makeNew_emits hband hqty (hempty hnil) g
      · obtain ⟨g', i, v, hv, huntrack⟩ := untrackRandom_eq d { s with rng := g } hnil hlen
        rw [huntrack]
        exact Emits.cancel g' i v hv
    · by_cases hnil : s.live = []
      · unfold peekRandom
        rw [if_pos (by rw [List.isEmpty_iff]; exact hnil)]
        exact makeNew_emits hband hqty (hempty hnil) g
      · obtain ⟨g', v, hv, hpeek⟩ := peekRandom_eq d { s with rng := g } hnil hlen
        rw [hpeek]
        dsimp only
        obtain ⟨qty, g', hdraw, hlot⟩ := drawQty_eq d { s with rng := g' } hqty
        rw [hdraw]
        dsimp only
        obtain ⟨c, g', hc⟩ := unit_eq d { s with rng := g' }
        rw [hc]
        dsimp only
        split
        · obtain ⟨off, g', hoff⟩ := drawOff_eq d { s with rng := g' }
          rw [hoff]
          dsimp only
          obtain ⟨e, g', he⟩ := unit_eq d { s with rng := g' }
          rw [he]
          exact Emits.modify (s := s) g' v _ qty hv hlot (Or.inr (clamp_mem hband))
        · exact Emits.modify (s := s) g' v kNoPrice qty hv hlot (Or.inl rfl)

/-! ## Runs -/

theorem news_run_le (d : Draws G F) (s : OrderFlowGenerator G F) (n : Nat) :
    (news (s.run d n).1).length ≤ (news (s.run d (n + 1)).1).length := by
  rw [run, news_concat, List.length_append]
  exact Nat.le_add_right _ _

theorem run_tracks (d : Draws G F) (cfg : FlowConfig F) (hv : cfg.Valid) (hmin : kNoPrice < cfg.minPrice) (g : G) :
    ∀ n, (news ((make cfg g).run d n).1).length < 2 ^ 64 →
      Tracks cfg ((make cfg g).run d n).1 ((make cfg g).run d n).2 := by
  intro n
  induction n with
  | zero => intro _; exact make_tracks cfg g
  | succ n ih =>
    intro hk
    have h := ih (Nat.lt_of_le_of_lt (news_run_le d (make cfg g) n) hk)
    have hcfg := h.cfg_eq
    exact h.step hmin (next_emits d (by rw [hcfg]; exact hv.band) (by rw [hcfg]; exact hv.qty) h.live_lt) hk

/-- The mid stays in the band. -/
theorem run_mid (d : Draws G F) (cfg : FlowConfig F) (hv : cfg.Valid) (hf : cfg.Fits) (hmin : kNoPrice < cfg.minPrice) (g : G) :
    ∀ n, (news ((make cfg g).run d n).1).length < 2 ^ 64 → cfg.InBand ((make cfg g).run d n).2.mid := by
  intro n
  induction n with
  | zero => intro _; exact ⟨hv.refLow, hv.refHigh⟩
  | succ n ih =>
    intro hk
    have hbefore := Nat.lt_of_le_of_lt (news_run_le d (make cfg g) n) hk
    have h := run_tracks d cfg hv hmin g n hbefore
    have hcfg := h.cfg_eq
    have hmid := ih hbefore
    have hemits := next_emits d (by rw [hcfg]; exact hv.band) (by rw [hcfg]; exact hv.qty) h.live_lt
    have hdrifts : ∀ mid, ((make cfg g).run d n).2.Drifts mid → cfg.InBand mid := by
      intro mid hd
      exact hd.inBand hcfg hv hf hmid
    show cfg.InBand (((make cfg g).run d n).2.next d).2.mid
    generalize ((make cfg g).run d n).2.next d = r at hemits
    cases hemits with
    | market g mid side client qty hd hlot => exact hdrifts mid hd
    | aggressive g mid side client qty price hd hlot hband => exact hdrifts mid hd
    | passive g mid side client qty price hd hlot hband hroom => exact hdrifts mid hd
    | cancel g i v hi => exact hmid
    | modify g v price qty hin hlot hprice => exact hmid

theorem run_length (d : Draws G F) (s : OrderFlowGenerator G F) (n : Nat) : (s.run d n).1.length = n := by
  induction n with
  | zero => rfl
  | succ n ih => rw [run, List.length_append, ih, List.length_singleton]

end OrderFlowGenerator

open OrderFlowGenerator

/-- The commands of any number of calls, whatever is drawn, and what is tracked after them. -/
theorem flow_well_formed {G F : Type} [OfScientific F] [LT F] [DecidableLT F] [Add F] (d : Draws G F) (cfg : FlowConfig F)
    (hv : cfg.Valid) (hmin : kNoPrice < cfg.minPrice) (g : G) (n : Nat)
    (hn : (news ((make cfg g).run d n).1).length < 2 ^ 64) :
    WellFormed cfg ((make cfg g).run d n).1 ∧ (((make cfg g).run d n).2.live.map Live.id).Nodup ∧
      ((make cfg g).run d n).2.live.length ≤ max cfg.maxLive.toNat 1 := by
  have h := run_tracks d cfg hv hmin g n hn
  exact ⟨h.formed, h.distinct, h.bounded⟩

/-- The defaults of the configuration, over the rationals. -/
def defaults : FlowConfig ℚ := {}

/-- The default configuration with the code's own draws. -/
theorem flow_well_formed_default :
    WellFormed defaults ((make defaults (Xoshiro.ofSeed defaults.seed)).run xoshiro 1000).1 ∧
      (((make defaults (Xoshiro.ofSeed defaults.seed)).run xoshiro 1000).2.live.map Live.id).Nodup ∧
      ((make defaults (Xoshiro.ofSeed defaults.seed)).run xoshiro 1000).2.live.length ≤ max defaults.maxLive.toNat 1 := by
  have hvalid : defaults.Valid := ⟨by decide, by decide, by decide, by decide, by decide⟩
  have hle := news_length_le ((make defaults (Xoshiro.ofSeed defaults.seed)).run xoshiro 1000).1
  rw [run_length] at hle
  exact flow_well_formed xoshiro defaults hvalid (by decide) _ 1000 (by omega)

/-! ## The ends of the types -/

/-- A band that starts at the sentinel, one tick below the mid; passive limits only. -/
def atSentinel : FlowConfig ℚ :=
  { seed := 2, refPrice := kNoPrice + 1, minPrice := kNoPrice, maxPrice := kNoPrice + 20, depthTicks := 1, pNew := 1,
    pMarket := 0, pAggressive := 0, driftProb := 0 }

/-- The first command is a Limit New whose price is the sentinel. -/
theorem limit_at_sentinel : atSentinel.Valid ∧
    ¬ WellFormed atSentinel ((make atSentinel (Xoshiro.ofSeed atSentinel.seed)).run xoshiro 1).1 := by
  refine ⟨⟨by decide, by decide, by decide, by decide, by decide⟩, ?_⟩
  intro h
  have hfirst : ((make atSentinel (Xoshiro.ofSeed atSentinel.seed)).next xoshiro).1.type = .new ∧
      ((make atSentinel (Xoshiro.ofSeed atSentinel.seed)).next xoshiro).1.price = kNoPrice ∧
      ((make atSentinel (Xoshiro.ofSeed atSentinel.seed)).next xoshiro).1.ordType = .limit := by decide +kernel
  have hprice := h.prices ((make atSentinel (Xoshiro.ofSeed atSentinel.seed)).next xoshiro).1 (List.mem_singleton_self _)
    hfirst.1
  rw [hfirst.2.2] at hprice
  cases hprice.1.mp hfirst.2.1

/-- Every draw is 0. -/
def zeros : Draws Unit ℚ where
  unit _ := (0, ())
  range _ _ := (0, ())
  range_lt _ _ hn := UInt64.pos_iff_ne_zero.mpr hn
  range_zero _ := rfl

/-- Market News only. -/
def marketOnly : FlowConfig ℚ := { pNew := 1, pMarket := 1, driftProb := 0 }

theorem next_market (s : OrderFlowGenerator Unit ℚ) (hcfg : s.cfg = marketOnly) (hlive : s.live = []) :
    (s.next zeros).1.type = .new ∧ (s.next zeros).2.cfg = marketOnly ∧ (s.next zeros).2.live = [] := by
  obtain ⟨cfg, rng, nextId, mid, live⟩ := s
  subst hcfg hlive
  exact ⟨rfl, rfl, rfl⟩

theorem run_market (n : Nat) :
    (news ((make marketOnly ()).run zeros n).1).length = n ∧ ((make marketOnly ()).run zeros n).2.cfg = marketOnly ∧
      ((make marketOnly ()).run zeros n).2.live = [] := by
  induction n with
  | zero => exact ⟨rfl, rfl, rfl⟩
  | succ n ih =>
    obtain ⟨hlen, hcfg, hlive⟩ := ih
    obtain ⟨hnew, hstep⟩ := next_market _ hcfg hlive
    refine ⟨?_, hstep⟩
    rw [run, news_concat, if_pos hnew, List.length_append, hlen, List.length_singleton]

/-- The 2 ^ 64-th New has id 0. -/
theorem ids_wrap : marketOnly.Valid ∧ ¬ WellFormed marketOnly ((make marketOnly ()).run zeros (2 ^ 64)).1 := by
  refine ⟨⟨by decide, by decide, by decide, by decide, by decide⟩, ?_⟩
  intro h
  have hlt := h.news_lt
  rw [(run_market (2 ^ 64)).1] at hlt
  exact Nat.lt_irrefl _ hlt

/-- A valid configuration alone is not enough: at either end of the types a command goes
    wrong. -/
theorem flow_ill_formed :
    (atSentinel.Valid ∧ ¬ WellFormed atSentinel ((make atSentinel (Xoshiro.ofSeed atSentinel.seed)).run xoshiro 1).1) ∧
      marketOnly.Valid ∧ ¬ WellFormed marketOnly ((make marketOnly ()).run zeros (2 ^ 64)).1 :=
  ⟨limit_at_sentinel, ids_wrap⟩

end Lob
