/-
  Lob.Laws.Documents — what is written for the dashboard and by a benchmark reads back.

  The writer never goes back: after each call its text lexes to the members written so far
  of the objects that are open (`Json.Inside`), whatever the indentation and the comma that
  is due. So a document parses, and its numbers read back, to the object of its fields
  (`documents_read_back`), as long as its strings need no escape, which the writer does not
  make, and its floating-point texts are numbers, which they are if the values are finite.
  Two of the writer's conversions are not injective: a price that is not there reads back as
  0 (`priceField`), and a count from 2 ^ 63 on as a negative number (`countField`).
-/

import Lob.Telemetry.Json

namespace Lob

open Base.Json

namespace Json

variable {j : Json} {pre : List Token} {ms : List (List Char × Value)} {k : String}

/-- An object begun after `pre` has the members `ms` so far. -/
structure Inside (j : Json) (pre : List Token) (ms : List (List Char × Value)) : Prop where
  lexed : lex j.os = some (pre ++ .punct '{' :: memberTokens ms)
  comma : j.needComma = !ms.isEmpty

theorem clean_pad (n : Nat) : Clean ('\n' :: (List.replicate n "  ".toList).flatten) [] := by
  have hspaces : ∀ n, Clean (List.replicate n "  ".toList).flatten [] := by
    intro n
    induction n with
    | zero => rfl
    | succ n ih => exact Clean.append (by decide : Clean "  ".toList []) ih
  exact Clean.append (a := ['\n']) (u := []) (by decide) (hspaces n)

/-- What follows a comma, if one is due, and a new line. -/
theorem clean_preValue {ts : List Token} (h : lex j.os = some ts) :
    Clean j.preValue.os (ts ++ if j.needComma then [.punct ','] else []) := by
  have hpad := clean_pad j.indent.toNat
  unfold preValue
  split
  · have hcomma : Clean (j.os ++ [',']) (ts ++ [.punct ',']) := lex_append h (by decide) (by decide)
    have hall := hcomma.append hpad
    rwa [List.append_nil] at hall
  · exact lex_append h (by decide) hpad

/-- The comma before the next member. -/
def sep {α : Type} (xs : List α) : List Token := if xs.isEmpty then [] else [.punct ',']

theorem Inside.sep (h : Inside j pre ms) : (if j.needComma then [Token.punct ','] else []) = Json.sep ms := by
  rw [h.comma, Json.sep]
  cases ms.isEmpty <;> rfl

/-- The tokens up to the value of the next member. -/
def keyed (pre : List Token) (ms : List (List Char × Value)) (k : String) : List Token :=
  pre ++ .punct '{' :: (memberTokens ms ++ (Json.sep ms ++ [.str k.toList, .punct ':']))

theorem Inside.key (h : Inside j pre ms) (hk : k.toList.all plain = true) : Clean (j.key k).os (keyed pre ms k) := by
  have hpre := clean_preValue h.lexed
  have hcolon : Clean (('"' :: (k.toList ++ ['"'])) ++ ": ".toList) [.str k.toList, .punct ':'] :=
    (Clean.string hk).append (w := [.punct ':']) (by decide)
  rw [h.sep] at hpre
  have hall := hpre.append hcolon
  have htext : ('"' :: (k.toList ++ ['"'])) ++ ": ".toList = '"' :: (k.toList ++ "\": ".toList) := by
    rw [List.cons_append, List.append_assoc]
    rfl
  rw [htext] at hall
  show Clean (j.preValue.os ++ _) _
  simpa only [keyed, List.append_assoc, List.cons_append] using hall

/-- The value of the member is written. -/
theorem Inside.member {j' : Json} {v : Value} (h : lex j'.os = some (keyed pre ms k ++ v.tokens)) (hcomma : j'.needComma = true) :
    Inside j' pre (ms ++ [(k.toList, v)]) where
  lexed := by
    rw [h, memberTokens_concat, keyed, Json.sep]
    simp only [List.append_assoc, List.cons_append, List.nil_append]
  comma := by
    rw [hcomma]
    cases ms <;> rfl

theorem Inside.str (h : Inside j pre ms) (hk : k.toList.all plain = true) {v : String} (hv : v.toList.all plain = true) :
    Inside (j.str k v) pre (ms ++ [(k.toList, .str v.toList)]) :=
  Inside.member ((h.key hk).append (Clean.string hv)).lex rfl

theorem Inside.num (h : Inside j pre ms) (hk : k.toList.all plain = true) {text : List Char} (ht : isNumber text = true) :
    Inside (j.num k text) pre (ms ++ [(k.toList, .num text)]) :=
  Inside.member ((h.key hk).number ht) rfl

theorem Inside.inum (h : Inside j pre ms) (hk : k.toList.all plain = true) (n : Int) :
    Inside (j.inum k n) pre (ms ++ [(k.toList, .int n)]) :=
  Inside.member ((h.key hk).number (isNumber_decimal n)) rfl

/-! ## Objects and arrays -/

theorem Inside.beginObj {ts : List Token} (h : Clean j.os ts) : Inside j.beginObj ts [] where
  lexed := (h.append (w := [.punct '{']) (by decide)).lex
  comma := rfl

theorem Inside.endObj (h : Inside j pre ms) : Clean j.endObj.os (pre ++ (Value.obj ms).tokens) := by
  have hpad := lex_append h.lexed (by decide) (clean_pad (j.indent - 1).toNat)
  have hend := hpad.append (b := ['}']) (w := [.punct '}']) (by decide)
  have htokens : pre ++ .punct '{' :: memberTokens ms ++ [] ++ [.punct '}'] = pre ++ (Value.obj ms).tokens := by
    simp [Value.tokens]
  rwa [htokens] at hend

/-- An object as the value of a member. -/
theorem Inside.close {j' : Json} {inner : List (List Char × Value)} (h : Inside j' (keyed pre ms k) inner) :
    Inside j'.endObj pre (ms ++ [(k.toList, .obj inner)]) :=
  Inside.member h.endObj.lex rfl

/-- An array begun after `pre` has the items `vs` so far. -/
structure Listing (j : Json) (pre : List Token) (vs : List Value) : Prop where
  lexed : lex j.os = some (pre ++ .punct '[' :: itemTokens vs)
  comma : j.needComma = !vs.isEmpty

theorem Listing.item {vs : List Value} (h : Listing j pre vs) {row : List Char} {v : Value} (hrow : Clean row v.tokens) :
    Listing (j.preValue.put row) pre (vs ++ [v]) where
  lexed := by
    have hsep : (if j.needComma then [Token.punct ','] else []) = Json.sep vs := by
      rw [h.comma, Json.sep]
      cases vs.isEmpty <;> rfl
    have hall := (clean_preValue h.lexed).append hrow
    rw [hsep] at hall
    refine hall.lex.trans ?_
    rw [itemTokens_concat, Json.sep]
    simp only [List.append_assoc, List.cons_append]
  comma := by cases vs <;> rfl

theorem Listing.endArr {vs : List Value} (h : Listing j pre vs) : lex j.endArr.os = some (pre ++ (Value.arr vs).tokens) := by
  have hclose : ∀ {cs : List Char}, lex cs = some (pre ++ .punct '[' :: itemTokens vs) →
      lex (cs ++ [']']) = some (pre ++ (Value.arr vs).tokens) := by
    intro cs hcs
    have hend := lex_append hcs (c := ']') (b := []) (w := [.punct ']']) (by decide) (by decide)
    rw [List.append_assoc, List.cons_append] at hend
    exact hend.lex
  simp only [Json.endArr]
  split
  · have hpad := lex_append h.lexed (by decide) (clean_pad (j.indent - 1).toNat)
    rw [List.append_nil] at hpad
    exact hclose hpad.lex
  · exact hclose h.lexed

theorem Listing.all {α : Type} {row : α → List Char} {v : α → Value} (hrow : ∀ x, Clean (row x) (v x).tokens) (xs : List α) :
    ∀ {j : Json} {vs : List Value}, Listing j pre vs →
      Listing (xs.foldl (fun j x => j.preValue.put (row x)) j) pre (vs ++ xs.map v) := by
  induction xs with
  | nil =>
    intro j vs h
    rwa [List.map_nil, List.append_nil]
  | cons x xs ih =>
    intro j vs h
    rw [List.map_cons, List.append_cons]
    exact ih (h.item (hrow x))

/-- A loop of rows as the value of a member. -/
theorem Inside.rows {α : Type} (h : Inside j pre ms) (hk : k.toList.all plain = true) {row : α → List Char} {v : α → Value}
    (hrow : ∀ x, Clean (row x) (v x).tokens) (xs : List α) :
    Inside (j.rows k row xs) pre (ms ++ [(k.toList, .arr (xs.map v))]) := by
  have hbegin : Listing (j.key k).beginArr (keyed pre ms k) [] :=
    ⟨((h.key hk).append (w := [.punct '[']) (by decide)).lex, rfl⟩
  exact Inside.member (Listing.all hrow xs hbegin).endArr rfl

end Json

/-! ## Fields -/

/-- A member whose value is an integer. -/
def intField (k : String) (n : Int) : List Char × Value := (k.toList, .int n)

/-- What a string, a number written as it is, a price and a 64-bit count read back as. -/
def textField (k : String) (t : String) : List Char × Reading := (k.toList, .str t.toList)

def plainField (k : String) (n : Nat) : List Char × Reading := (k.toList, .int n)

def priceField (k : String) (p : Price) : List Char × Reading := (k.toList, .int (if p = kNoPrice then 0 else p))

def countField (k : String) (n : Nat) : List Char × Reading :=
  (k.toList, .int (if n % 2 ^ 64 < 2 ^ 63 then (n % 2 ^ 64 : Nat) else (n % 2 ^ 64 : Nat) - 2 ^ 64))

def realField (k : String) (text : List Char) : List Char × Reading := (k.toList, .num text)

theorem countField_eq (k : String) (n : Nat) : countField k n = (k.toList, .int (longLong n)) := by
  have hsigned : longLong n = if n % 2 ^ 64 < 2 ^ 63 then ((n % 2 ^ 64 : Nat) : Int) else (n % 2 ^ 64 : Nat) - 2 ^ 64 := by
    rw [longLong, BitVec.toInt_eq_toNat_cond, BitVec.toNat_ofNat]
    split <;> split <;> omega
  rw [countField, hsigned]

theorem priceField_eq (k : String) (p : Price) : priceField k p = (k.toList, .int (px p)) := rfl

/-! ## Rows -/

def DepthEntry.value (r : DepthEntry) : Value :=
  .obj [intField "price" (px r.price), intField "qty" r.qty.toNat, intField "orders" r.orders.toNat]

def DepthEntry.reading (r : DepthEntry) : Reading :=
  .obj [priceField "price" r.price, plainField "qty" r.qty.toNat, plainField "orders" r.orders.toNat]

def TradePrint.value (t : TradePrint) : Value :=
  .obj [intField "ts" (longLong t.ts.toNat), intField "price" (px t.price), intField "qty" t.qty.toNat,
    ("aggressor".toList, .str (sideStr t.aggressor).toList)]

def TradePrint.reading (t : TradePrint) : Reading :=
  .obj [countField "ts" t.ts.toNat, priceField "price" t.price, plainField "qty" t.qty.toNat,
    textField "aggressor" (if t.aggressor = .buy then "buy" else "sell")]

def LatencyHistogram.Bin.value (b : LatencyHistogram.Bin) : Value :=
  .obj [intField "lo" b.lo.toNat, intField "hi" b.hi.toNat, intField "count" b.count]

def LatencyHistogram.Bin.reading (b : LatencyHistogram.Bin) : Reading :=
  .obj [plainField "lo" b.lo.toNat, plainField "hi" b.hi.toNat, plainField "count" b.count]

theorem DepthEntry.read_value (r : DepthEntry) : r.value.read = r.reading := by
  simp only [value, reading, intField, priceField_eq, plainField, Value.read, readMembers, read_int]

theorem LatencyHistogram.Bin.read_value (b : LatencyHistogram.Bin) : b.value.read = b.reading := by
  simp only [value, reading, intField, plainField, Value.read, readMembers, read_int]

theorem TradePrint.read_value (t : TradePrint) : t.value.read = t.reading := by
  have hside : sideStr t.aggressor = if t.aggressor = .buy then "buy" else "sell" := by cases t.aggressor <;> rfl
  simp only [value, reading, intField, priceField_eq, countField_eq, plainField, textField, Value.read, readMembers,
    read_int, hside]

theorem read_rows {α : Type} {v : α → Value} {r : α → Reading} (h : ∀ x, (v x).read = r x) (xs : List α) :
    readItems (xs.map v) = xs.map r := by
  rw [readItems_eq, List.map_map]
  exact List.map_congr_left fun x _ => h x

theorem DepthEntry.clean_row (r : DepthEntry) : Clean r.row r.value.tokens := by
  have h1 : Clean "\x7b \"price\": ".toList [.punct '{', .str "price".toList, .punct ':'] := by decide
  have h2 := lex_append (h1.number (isNumber_decimal (px r.price))) (c := ',') (b := " \"qty\": ".toList)
    (w := [.punct ',', .str "qty".toList, .punct ':']) (by decide) (by decide)
  have h3 := lex_append (h2.number (isNumber_decimal r.qty.toNat)) (c := ',') (b := " \"orders\": ".toList)
    (w := [.punct ',', .str "orders".toList, .punct ':']) (by decide) (by decide)
  exact lex_append (h3.number (isNumber_decimal r.orders.toNat)) (c := ' ') (b := ['}']) (w := [.punct '}']) (by decide) (by decide)

theorem LatencyHistogram.Bin.clean_row (b : LatencyHistogram.Bin) : Clean b.row b.value.tokens := by
  have h1 : Clean "\x7b \"lo\": ".toList [.punct '{', .str "lo".toList, .punct ':'] := by decide
  have h2 := lex_append (h1.number (isNumber_decimal b.lo.toNat)) (c := ',') (b := " \"hi\": ".toList)
    (w := [.punct ',', .str "hi".toList, .punct ':']) (by decide) (by decide)
  have h3 := lex_append (h2.number (isNumber_decimal b.hi.toNat)) (c := ',') (b := " \"count\": ".toList)
    (w := [.punct ',', .str "count".toList, .punct ':']) (by decide) (by decide)
  exact lex_append (h3.number (isNumber_decimal b.count)) (c := ' ') (b := ['}']) (w := [.punct '}']) (by decide) (by decide)

theorem TradePrint.clean_row (t : TradePrint) : Clean t.row t.value.tokens := by
  have h1 : Clean "\x7b \"ts\": ".toList [.punct '{', .str "ts".toList, .punct ':'] := by decide
  have h2 := lex_append (h1.number (isNumber_decimal (longLong t.ts.toNat))) (c := ',') (b := " \"price\": ".toList)
    (w := [.punct ',', .str "price".toList, .punct ':']) (by decide) (by decide)
  have h3 := lex_append (h2.number (isNumber_decimal (px t.price))) (c := ',') (b := " \"qty\": ".toList)
    (w := [.punct ',', .str "qty".toList, .punct ':']) (by decide) (by decide)
  have h4 := lex_append (h3.number (isNumber_decimal t.qty.toNat)) (c := ',') (b := " \"aggressor\": ".toList)
    (w := [.punct ',', .str "aggressor".toList, .punct ':']) (by decide) (by decide +kernel)
  have hside : (sideStr t.aggressor).toList.all plain = true := by cases t.aggressor <;> decide
  have h5 := (h4.append (Clean.string hside)).append (b := " \x7d".toList) (w := [.punct '}']) (by decide)
  show Clean (_ ++ (',' :: (" \"aggressor\": ".toList ++ ['"'])) ++ (sideStr t.aggressor).toList ++ ('"' :: " \x7d".toList)) _
  simpa [TradePrint.value, Value.tokens, memberTokens, intField, Value.int] using h5

/-! ## Documents -/

variable {D : Type}

/-- What the dashboard's document says. -/
def DashboardDocument.reading (fmt : D → List Char) (s : DashboardDocument D) : Reading :=
  .obj
    [textField "instrument" s.instrument, textField "engine_build" s.engineBuild, textField "host" s.host,
      countField "generated_ns" s.generatedNs.toNat, countField "wall_unix_ms" s.wallUnixMs, realField "uptime_s" (fmt s.uptimeS),
      countField "commands_total" s.commandsTotal, countField "trades_total" s.tradesTotal,
      countField "shares_total" s.sharesTotal.toNat, countField "rejects_total" s.rejectsTotal,
      realField "throughput_ops" (fmt s.throughputOps), realField "md_msgs_per_s" (fmt s.mdMsgsPerS),
      realField "md_mbit_per_s" (fmt s.mdMbitPerS), countField "md_seq_gaps" s.mdSeqGaps, priceField "best_bid" s.bestBid,
      priceField "best_ask" s.bestAsk, priceField "spread" s.spread, priceField "last_px" s.lastPx,
      countField "resting_orders" s.restingOrders, ("bids".toList, .arr (s.bids.map DepthEntry.reading)),
      ("asks".toList, .arr (s.asks.map DepthEntry.reading)), ("tape".toList, .arr (s.tape.map TradePrint.reading)),
      ("latency".toList,
        .obj
          [textField "scope" s.latScope, countField "count" s.latCount, countField "min" s.latMin.toNat,
            countField "p50" s.latP50, countField "p90" s.latP90, countField "p99" s.latP99, countField "p999" s.latP999,
            countField "max" s.latMax.toNat, realField "mean" (fmt s.latMean),
            ("histogram".toList, .arr (s.latHist.map LatencyHistogram.Bin.reading))])]

/-- No string needs an escape, and the floating-point texts are numbers. -/
structure DashboardDocument.Printable (fmt : D → List Char) (s : DashboardDocument D) : Prop where
  strings : ∀ t ∈ [s.instrument, s.engineBuild, s.host, s.latScope], t.toList.all plain = true
  numbers : ∀ d ∈ [s.uptimeS, s.throughputOps, s.mdMsgsPerS, s.mdMbitPerS, s.latMean], isNumber (fmt d) = true

instance (fmt : D → List Char) (s : DashboardDocument D) : Decidable (s.Printable fmt) :=
  decidable_of_iff (_ ∧ _) ⟨fun h => ⟨h.1, h.2⟩, fun h => ⟨h.strings, h.numbers⟩⟩

theorem DashboardDocument.Printable.lex_toJson {fmt : D → List Char} {s : DashboardDocument D} (h : s.Printable fmt) :
    ∃ v : Value, lex (s.toJson fmt) = some v.tokens ∧ v.read = s.reading fmt := by
  have hs := h.strings
  have hn := h.numbers
  simp only [List.forall_mem_cons, List.not_mem_nil, false_imp_iff, implies_true, and_true] at hs hn
  obtain ⟨hinstrument, hbuild, hhost, hscope⟩ := hs
  obtain ⟨huptime, hthroughput, hmsgs, hmbit, hmean⟩ := hn
  have h : Json.Inside (Json.beginObj {}) [] [] := Json.Inside.beginObj rfl
  have h := h.str (k := "instrument") rfl hinstrument
  have h := h.str (k := "engine_build") rfl hbuild
  have h := h.str (k := "host") rfl hhost
  have h := h.inum (k := "generated_ns") rfl (longLong s.generatedNs.toNat)
  have h := h.inum (k := "wall_unix_ms") rfl (longLong s.wallUnixMs)
  have h := h.num (k := "uptime_s") rfl huptime
  have h := h.inum (k := "commands_total") rfl (longLong s.commandsTotal)
  have h := h.inum (k := "trades_total") rfl (longLong s.tradesTotal)
  have h := h.inum (k := "shares_total") rfl (longLong s.sharesTotal.toNat)
  have h := h.inum (k := "rejects_total") rfl (longLong s.rejectsTotal)
  have h := h.num (k := "throughput_ops") rfl hthroughput
  have h := h.num (k := "md_msgs_per_s") rfl hmsgs
  have h := h.num (k := "md_mbit_per_s") rfl hmbit
  have h := h.inum (k := "md_seq_gaps") rfl (longLong s.mdSeqGaps)
  have h := h.inum (k := "best_bid") rfl (px s.bestBid)
  have h := h.inum (k := "best_ask") rfl (px s.bestAsk)
  have h := h.inum (k := "spread") rfl (px s.spread)
  have h := h.inum (k := "last_px") rfl (px s.lastPx)
  have h := h.inum (k := "resting_orders") rfl (longLong s.restingOrders)
  have h := h.rows (k := "bids") rfl DepthEntry.clean_row s.bids
  have h := h.rows (k := "asks") rfl DepthEntry.clean_row s.asks
  have h := h.rows (k := "tape") rfl TradePrint.clean_row s.tape
  have h := Json.Inside.beginObj (h.key (k := "latency") rfl)
  have h := h.str (k := "scope") rfl hscope
  have h := h.inum (k := "count") rfl (longLong s.latCount)
  have h := h.inum (k := "min") rfl (longLong s.latMin.toNat)
  have h := h.inum (k := "p50") rfl (longLong s.latP50)
  have h := h.inum (k := "p90") rfl (longLong s.latP90)
  have h := h.inum (k := "p99") rfl (longLong s.latP99)
  have h := h.inum (k := "p999") rfl (longLong s.latP999)
  have h := h.inum (k := "max") rfl (longLong s.latMax.toNat)
  have h := h.num (k := "mean") rfl hmean
  have h := h.rows (k := "histogram") rfl LatencyHistogram.Bin.clean_row s.latHist
  have h := h.close.endObj.lex
  simp only [List.nil_append, List.cons_append] at h
  refine ⟨_, h, ?_⟩
  simp only [Value.read, readMembers, read_int, read_rows DepthEntry.read_value, read_rows TradePrint.read_value,
    read_rows LatencyHistogram.Bin.read_value]
  simp only [DashboardDocument.reading, textField, priceField_eq, countField_eq, realField]

/-- What a benchmark's document says. -/
def BenchResult.reading (fmt : D → List Char) (r : BenchResult D) : Reading :=
  .obj
    [textField "mode" r.mode, textField "host" r.host, textField "cpu" r.cpu, textField "build" r.build,
      textField "compiler" r.compiler, countField "events" r.events, realField "wall_s" (fmt r.wallS),
      realField "throughput_ops" (fmt r.throughputOps), countField "trades" r.trades, countField "shares" r.shares,
      countField "rejects" r.rejects, countField "peak_resting" r.peakResting, realField "fill_ratio" (fmt r.fillRatio),
      ("latency_ns".toList,
        .obj
          [textField "scope" r.latScope, countField "min" r.latMin, countField "p50" r.latP50, countField "p90" r.latP90,
            countField "p99" r.latP99, countField "p999" r.latP999, countField "p9999" r.latP9999, countField "max" r.latMax,
            realField "mean" (fmt r.latMean)]),
      ("histogram".toList, .arr (r.hist.map LatencyHistogram.Bin.reading))]

structure BenchResult.Printable (fmt : D → List Char) (r : BenchResult D) : Prop where
  strings : ∀ t ∈ [r.mode, r.host, r.cpu, r.build, r.compiler, r.latScope], t.toList.all plain = true
  numbers : ∀ d ∈ [r.wallS, r.throughputOps, r.fillRatio, r.latMean], isNumber (fmt d) = true

theorem BenchResult.Printable.lex_toJson {fmt : D → List Char} {r : BenchResult D} (h : r.Printable fmt) :
    ∃ v : Value, lex (r.toJson fmt) = some v.tokens ∧ v.read = r.reading fmt := by
  have hs := h.strings
  have hn := h.numbers
  simp only [List.forall_mem_cons, List.not_mem_nil, false_imp_iff, implies_true, and_true] at hs hn
  obtain ⟨hmode, hhost, hcpu, hbuild, hcompiler, hscope⟩ := hs
  obtain ⟨hwall, hthroughput, hratio, hmean⟩ := hn
  have h : Json.Inside (Json.beginObj {}) [] [] := Json.Inside.beginObj rfl
  have h := h.str (k := "mode") rfl hmode
  have h := h.str (k := "host") rfl hhost
  have h := h.str (k := "cpu") rfl hcpu
  have h := h.str (k := "build") rfl hbuild
  have h := h.str (k := "compiler") rfl hcompiler
  have h := h.inum (k := "events") rfl (longLong r.events)
  have h := h.num (k := "wall_s") rfl hwall
  have h := h.num (k := "throughput_ops") rfl hthroughput
  have h := h.inum (k := "trades") rfl (longLong r.trades)
  have h := h.inum (k := "shares") rfl (longLong r.shares)
  have h := h.inum (k := "rejects") rfl (longLong r.rejects)
  have h := h.inum (k := "peak_resting") rfl (longLong r.peakResting)
  have h := h.num (k := "fill_ratio") rfl hratio
  have h := Json.Inside.beginObj (h.key (k := "latency_ns") rfl)
  have h := h.str (k := "scope") rfl hscope
  have h := h.inum (k := "min") rfl (longLong r.latMin)
  have h := h.inum (k := "p50") rfl (longLong r.latP50)
  have h := h.inum (k := "p90") rfl (longLong r.latP90)
  have h := h.inum (k := "p99") rfl (longLong r.latP99)
  have h := h.inum (k := "p999") rfl (longLong r.latP999)
  have h := h.inum (k := "p9999") rfl (longLong r.latP9999)
  have h := h.inum (k := "max") rfl (longLong r.latMax)
  have h := h.num (k := "mean") rfl hmean
  have h := h.close
  have h := h.rows (k := "histogram") rfl LatencyHistogram.Bin.clean_row r.hist
  have h := h.endObj.lex
  simp only [List.nil_append, List.cons_append] at h
  refine ⟨_, h, ?_⟩
  simp only [Value.read, readMembers, read_int, read_rows LatencyHistogram.Bin.read_value]
  simp only [BenchResult.reading, textField, countField_eq, realField]

/-- A text that lexes to a value's tokens parses, and says what the value does. -/
theorem parse_reads {text : List Char} {r : Reading} (h : ∃ v : Value, lex text = some v.tokens ∧ v.read = r) :
    (parse text).map Value.read = some r := by
  obtain ⟨v, hlex, rfl⟩ := h
  rw [parse_of_lex hlex, Option.map_some]

/-- Both documents read back as the object of their fields, whatever these are. -/
theorem documents_read_back (fmt : D → List Char) :
    (∀ s : DashboardDocument D, s.Printable fmt → (parse (s.toJson fmt)).map Value.read = some (s.reading fmt)) ∧
      ∀ r : BenchResult D, r.Printable fmt → (parse (r.toJson fmt)).map Value.read = some (r.reading fmt) :=
  ⟨fun _ h => parse_reads h.lex_toJson, fun _ h => parse_reads h.lex_toJson⟩

/-- One bid, no ask, two prints, a bin; a count that is negative for a `long long`. -/
def shownDocument : DashboardDocument Nat :=
  { instrument := "LOB-PERP", generatedNs := 7, commandsTotal := 3, tradesTotal := 2, sharesTotal := 18446744073709551615,
    bestBid := 101, lastPx := -4, restingOrders := 1, bids := [⟨101, 30, 2⟩], tape := [⟨5, 101, 3, .buy⟩, ⟨6, -4, 2, .sell⟩],
    latScope := "engine", latCount := 3, latMin := 40, latMax := 90, latP50 := 63, latHist := [⟨63, 64, 2⟩], uptimeS := 5,
    throughputOps := 0, mdMsgsPerS := 0, mdMbitPerS := 0, latMean := 71 }

def benchDocument : BenchResult Nat :=
  { mode := "core", host := "linux", cpu := "x86", build := "release", compiler := "gcc", events := 1000, wallS := 2,
    throughputOps := 500, trades := 300, shares := 900, fillRatio := 0, latScope := "engine", latMin := 40, latMax := 90,
    latMean := 71, hist := [⟨63, 64, 2⟩, ⟨127, 128, 1⟩] }

theorem documents_read_back_shown :
    (parse (shownDocument.toJson (Nat.toDigits 10))).map Value.read =
        some (.obj
          [("instrument".toList, .str "LOB-PERP".toList), ("engine_build".toList, .str []), ("host".toList, .str []),
            ("generated_ns".toList, .int 7), ("wall_unix_ms".toList, .int 0), ("uptime_s".toList, .int 5),
            ("commands_total".toList, .int 3), ("trades_total".toList, .int 2), ("shares_total".toList, .int (-1)),
            ("rejects_total".toList, .int 0), ("throughput_ops".toList, .int 0), ("md_msgs_per_s".toList, .int 0),
            ("md_mbit_per_s".toList, .int 0), ("md_seq_gaps".toList, .int 0), ("best_bid".toList, .int 101),
            ("best_ask".toList, .int 0), ("spread".toList, .int 0), ("last_px".toList, .int (-4)),
            ("resting_orders".toList, .int 1),
            ("bids".toList,
              .arr [.obj [("price".toList, .int 101), ("qty".toList, .int 30), ("orders".toList, .int 2)]]),
            ("asks".toList, .arr []),
            ("tape".toList,
              .arr
                [.obj [("ts".toList, .int 5), ("price".toList, .int 101), ("qty".toList, .int 3),
                    ("aggressor".toList, .str "buy".toList)],
                  .obj [("ts".toList, .int 6), ("price".toList, .int (-4)), ("qty".toList, .int 2),
                    ("aggressor".toList, .str "sell".toList)]]),
            ("latency".toList,
              .obj
                [("scope".toList, .str "engine".toList), ("count".toList, .int 3), ("min".toList, .int 40),
                  ("p50".toList, .int 63), ("p90".toList, .int 0), ("p99".toList, .int 0), ("p999".toList, .int 0),
                  ("max".toList, .int 90), ("mean".toList, .int 71),
                  ("histogram".toList,
                    .arr [.obj [("lo".toList, .int 63), ("hi".toList, .int 64), ("count".toList, .int 2)]])])]) ∧
      (parse (benchDocument.toJson (Nat.toDigits 10))).map Value.read =
        some (.obj
          [("mode".toList, .str "core".toList), ("host".toList, .str "linux".toList), ("cpu".toList, .str "x86".toList),
            ("build".toList, .str "release".toList), ("compiler".toList, .str "gcc".toList), ("events".toList, .int 1000),
            ("wall_s".toList, .int 2), ("throughput_ops".toList, .int 500), ("trades".toList, .int 300),
            ("shares".toList, .int 900), ("rejects".toList, .int 0), ("peak_resting".toList, .int 0),
            ("fill_ratio".toList, .int 0),
            ("latency_ns".toList,
              .obj
                [("scope".toList, .str "engine".toList), ("min".toList, .int 40), ("p50".toList, .int 0),
                  ("p90".toList, .int 0), ("p99".toList, .int 0), ("p999".toList, .int 0), ("p9999".toList, .int 0),
                  ("max".toList, .int 90), ("mean".toList, .int 71)]),
            ("histogram".toList,
              .arr
                [.obj [("lo".toList, .int 63), ("hi".toList, .int 64), ("count".toList, .int 2)],
                  .obj [("lo".toList, .int 127), ("hi".toList, .int 128), ("count".toList, .int 1)]])]) :=
  have hboth := documents_read_back (Nat.toDigits 10)
  ⟨hboth.1 shownDocument ⟨by decide, by decide⟩, hboth.2 benchDocument ⟨by decide, by decide⟩⟩

end Lob
