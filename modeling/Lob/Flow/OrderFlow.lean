/-
  Lob.Flow.OrderFlow — the synthetic order flow (`order_flow.hpp`, `order_flow.cpp`).

  The generator draws from `unit()` and `range(n)` and reads nothing else that varies, so
  the draws are a parameter: `Draws` says only that `range(n)` is below `n`, and 0 when `n`
  is 0. `xoshiro` is the code's own. The `double`s of the configuration are compared and
  added, once; they are of any type with these operations.

  Prices are summed and converted in 64 bits (`toPrice`), the margin in 32. A sum the code
  leaves undefined (past the ends of `int64_t`) is taken modulo 2 ^ 64 here; each price sent
  is clamped into the band after it.
-/

import Lob.Types
import Mathlib.Data.Rat.Defs
import Mathlib.Algebra.Order.Ring.Rat

namespace Lob

structure FlowConfig (F : Type) [OfScientific F] where
  seed : UInt64 := 42
  refPrice : Price := 10000
  minPrice : Price := 1
  maxPrice : Price := 20000
  minQty : Quantity := 1
  maxQty : Quantity := 100
  pNew : F := 0.60
  pCancel : F := 0.32
  pMarket : F := 0.02
  pAggressive : F := 0.14
  depthTicks : Int := 16
  driftProb : F := 0.04
  clients : ClientId := 8
  maxLive : UInt64 := 60000

/-- Where `unit` and `range` draw from: `G` is the state they advance. -/
structure Draws (G F : Type) where
  unit : G → F × G
  range : G → UInt64 → UInt64 × G
  range_lt : ∀ g n, n ≠ 0 → (range g n).1 < n
  range_zero : ∀ g, (range g 0).1 = 0

structure Live where
  id : OrderId
  client : ClientId
  deriving DecidableEq, Repr

structure OrderFlowGenerator (G F : Type) [OfScientific F] where
  cfg : FlowConfig F
  rng : G
  nextId : OrderId := 1
  mid : Price
  live : List Live := []

/-! ## Integers -/

/-- Conversion to `Price`, modulo 2 ^ 64. -/
def toPrice (x : Int) : Price := Int.bmod x (2 ^ 64)

/-- `std::clamp`. -/
def clamp (v lo hi : Price) : Price := if v < lo then lo else if hi < v then hi else v

theorem clamp_mem {v lo hi : Price} (h : lo ≤ hi) : lo ≤ clamp v lo hi ∧ clamp v lo hi ≤ hi := by
  unfold clamp
  split_ifs with h1 h2
  · exact ⟨le_refl lo, h⟩
  · exact ⟨h, le_refl hi⟩
  · exact ⟨not_lt.mp h1, not_lt.mp h2⟩

namespace OrderFlowGenerator

variable {G F : Type} [OfScientific F]

/-- The constructor; `g` is what it makes of the seed. -/
def make (cfg : FlowConfig F) (g : G) : OrderFlowGenerator G F := { cfg := cfg, rng := g, mid := cfg.refPrice }

variable (d : Draws G F)

def unit (s : OrderFlowGenerator G F) : F × OrderFlowGenerator G F :=
  ((d.unit s.rng).1, { s with rng := (d.unit s.rng).2 })

def range (s : OrderFlowGenerator G F) (n : UInt64) : UInt64 × OrderFlowGenerator G F :=
  ((d.range s.rng n).1, { s with rng := (d.range s.rng n).2 })

/-! ## The tracked orders -/

def track (s : OrderFlowGenerator G F) (id : OrderId) (c : ClientId) : OrderFlowGenerator G F :=
  { s with live := s.live ++ [⟨id, c⟩] }

def peekRandom (s : OrderFlowGenerator G F) : Option Live × OrderFlowGenerator G F :=
  if s.live.isEmpty then (none, s)
  else
    let i := s.range d (UInt64.ofNat s.live.length)
    (s.live[i.1.toNat]?, i.2)

/-- `live_[i] = live_.back(); live_.pop_back()`. -/
def swapRemove (live : List Live) (i : Nat) : List Live :=
  match live.getLast? with
  | some back => (live.set i back).dropLast
  | none => []

def untrackRandom (s : OrderFlowGenerator G F) : Option Live × OrderFlowGenerator G F :=
  if s.live.isEmpty then (none, s)
  else
    let i := s.range d (UInt64.ofNat s.live.length)
    (s.live[i.1.toNat]?, { i.2 with live := swapRemove s.live i.1.toNat })

/-! ## Commands -/

/-- `cfg_.min_qty + range(cfg_.max_qty - cfg_.min_qty + 1)`. -/
def drawQty (s : OrderFlowGenerator G F) : Quantity × OrderFlowGenerator G F :=
  let r := s.range d (s.cfg.maxQty - s.cfg.minQty + 1)
  (s.cfg.minQty + r.1, r.2)

/-- `1 + range(depth_ticks)`. -/
def drawOff (s : OrderFlowGenerator G F) : Price × OrderFlowGenerator G F :=
  let r := s.range d (UInt64.ofInt s.cfg.depthTicks)
  (toPrice (1 + r.1).toNat, r.2)

variable [LT F] [DecidableLT F]

/-- The first block of `make_new`: the mid may step. -/
def drift (s : OrderFlowGenerator G F) : OrderFlowGenerator G F :=
  let u := s.unit d
  if u.1 < s.cfg.driftProb then
    let r := u.2.range d 3
    let step := toPrice (1 + r.1).toNat
    let c := r.2.unit d
    let mid := toPrice (s.mid + if c.1 < 0.5 then -step else step)
    let margin := Int.bmod (s.cfg.depthTicks + 4) (2 ^ 32)
    { c.2 with mid := clamp mid (toPrice (s.cfg.minPrice + margin)) (toPrice (s.cfg.maxPrice - margin)) }
  else u.2

def makeNew (s : OrderFlowGenerator G F) : Command × OrderFlowGenerator G F :=
  let s := s.drift d
  let u := s.unit d
  let side := if u.1 < 0.5 then Side.buy else Side.sell
  let client := u.2.range d s.cfg.clients.toUInt64
  let qty := client.2.drawQty d
  let id := s.nextId
  let s : OrderFlowGenerator G F := { qty.2 with nextId := id + 1 }
  let u := s.unit d
  if u.1 < s.cfg.pMarket then
    (Command.makeNew id client.1.toUInt32 side .market kNoPrice qty.1 0, u.2)
  else
    let off := u.2.drawOff d
    let a := off.2.unit d
    let aggressive := decide (a.1 < s.cfg.pAggressive)
    let price := match side with
      | .buy => if aggressive then toPrice (s.mid + off.1) else toPrice (s.mid - off.1)
      | .sell => if aggressive then toPrice (s.mid - off.1) else toPrice (s.mid + off.1)
    let price := clamp price s.cfg.minPrice s.cfg.maxPrice
    let s := if aggressive then a.2 else a.2.track id client.1.toUInt32
    (Command.makeNew id client.1.toUInt32 side .limit price qty.1 0, s)

variable [Add F]

def next (s : OrderFlowGenerator G F) : Command × OrderFlowGenerator G F :=
  let u := s.unit d
  let s := u.2
  let overDepth := decide (s.cfg.maxLive.toNat ≤ s.live.length)
  if !overDepth && (decide (u.1 < s.cfg.pNew) || s.live.isEmpty) then s.makeNew d
  else if overDepth || decide (u.1 < s.cfg.pNew + s.cfg.pCancel) then
    match s.untrackRandom d with
    | (some v, s) => (Command.makeCancel v.id v.client 0, s)
    | (none, s) => s.makeNew d
  else
    match s.peekRandom d with
    | (some v, s) =>
      let qty := s.drawQty d
      let u := qty.2.unit d
      if u.1 < 0.5 then
        let off := u.2.drawOff d
        let c := off.2.unit d
        let price := clamp (if c.1 < 0.5 then toPrice (s.mid - off.1) else toPrice (s.mid + off.1))
          s.cfg.minPrice s.cfg.maxPrice
        (Command.makeModify v.id v.client price qty.1 0, c.2)
      else (Command.makeModify v.id v.client kNoPrice qty.1 0, u.2)
    | (none, s) => s.makeNew d

/-- The commands of `n` calls of `next`, and the generator after them. -/
def run (s : OrderFlowGenerator G F) : Nat → List Command × OrderFlowGenerator G F
  | 0 => ([], s)
  | n + 1 =>
    let r := run s n
    (r.1 ++ [(r.2.next d).1], (r.2.next d).2)

end OrderFlowGenerator

/-! ## The code's draws -/

namespace Xoshiro

def splitmix64 (x : UInt64) : UInt64 × UInt64 :=
  let x := x + 0x9e3779b97f4a7c15
  let z := (x ^^^ (x >>> 30)) * 0xbf58476d1ce4e5b9
  let z := (z ^^^ (z >>> 27)) * 0x94d049bb133111eb
  (z ^^^ (z >>> 31), x)

def rotl (x k : UInt64) : UInt64 := (x <<< k) ||| (x >>> (64 - k))

end Xoshiro

/-- The four words of xoshiro256**. -/
structure Xoshiro where
  s0 : UInt64
  s1 : UInt64
  s2 : UInt64
  s3 : UInt64
  deriving DecidableEq, Repr

namespace Xoshiro

def ofSeed (seed : UInt64) : Xoshiro :=
  let a := splitmix64 seed
  let b := splitmix64 a.2
  let c := splitmix64 b.2
  let e := splitmix64 c.2
  ⟨a.1, b.1, c.1, e.1⟩

def nextU64 (s : Xoshiro) : UInt64 × Xoshiro :=
  let result := rotl (s.s1 * 5) 7 * 9
  let t := s.s1 <<< 17
  let s2 := s.s2 ^^^ s.s0
  let s3 := s.s3 ^^^ s.s1
  let s1 := s.s1 ^^^ s2
  let s0 := s.s0 ^^^ s3
  let s2 := s2 ^^^ t
  let s3 := rotl s3 45
  (result, ⟨s0, s1, s2, s3⟩)

end Xoshiro

/-- The 53-bit fraction `unit` makes is exact in a `double`: here it is a rational. -/
def xoshiro : Draws Xoshiro ℚ where
  unit g := ((g.nextU64.1 >>> 11).toNat / 9007199254740992, g.nextU64.2)
  range g n := if n = 0 then (0, g) else (g.nextU64.1 % n, g.nextU64.2)
  range_lt g n hn := by
    rw [if_neg hn]
    exact UInt64.mod_lt _ (UInt64.pos_iff_ne_zero.mpr hn)
  range_zero g := by rw [if_pos rfl]

end Lob
