/-
  Lob.Wire.Codec — the binary wire protocol (`wire.hpp`, `wire.cpp`).

  An enumeration on the wire is its byte: a `static_cast` of any byte has a result, so a
  decoded message may hold one that no enumerator has. `sideOf`, `orderTypeOf`,
  `eventTypeOf` and `rejectReasonOf` read the declared ones.

  A `Writer` owns a memory `out` of which it may write the first `cap` bytes; `encode`
  answers that memory and the number of bytes written, 0 when they do not fit.
-/

import Lob.Base.LittleEndian
import Lob.Types

namespace Lob

/-! ## Enumerations -/

def Side.byte : Side → UInt8
  | .buy => 0
  | .sell => 1

def OrderType.byte : OrderType → UInt8
  | .limit => 0
  | .market => 1
  | .ioc => 2
  | .postOnly => 3
  | .fok => 4

def RejectReason.byte : RejectReason → UInt8
  | .none => 0
  | .unknownOrder => 1
  | .duplicateOrderId => 2
  | .priceOutOfBand => 3
  | .zeroQuantity => 4
  | .postOnlyWouldCross => 5
  | .fokUnfillable => 6
  | .bookHalted => 7
  | .poolExhausted => 8
  | .selfTradePrevented => 9

def EventType.byte : EventType → UInt8
  | .accepted => 0
  | .rejected => 1
  | .fill => 2
  | .canceled => 3
  | .replaced => 4
  | .trade => 5
  | .bookChanged => 6

namespace Wire

open Lob.Base.LittleEndian

/-- The enumerator a byte stands for. -/
def enumOf {E : Type} (byte : E → UInt8) (all : List E) (b : UInt8) : Option E := all.find? fun e => byte e = b

def sideOf : UInt8 → Option Side := enumOf Side.byte [.buy, .sell]

def orderTypeOf : UInt8 → Option OrderType := enumOf OrderType.byte [.limit, .market, .ioc, .postOnly, .fok]

def eventTypeOf : UInt8 → Option EventType :=
  enumOf EventType.byte [.accepted, .rejected, .fill, .canceled, .replaced, .trade, .bookChanged]

def rejectReasonOf : UInt8 → Option RejectReason :=
  enumOf RejectReason.byte [.none, .unknownOrder, .duplicateOrderId, .priceOutOfBand, .zeroQuantity, .postOnlyWouldCross,
    .fokUnfillable, .bookHalted, .poolExhausted, .selfTradePrevented]

/-! ## Messages -/

def kVersion : UInt8 := 1

inductive MsgType where
  | newOrder
  | cancelOrder
  | modifyOrder
  | execReport
  | mdTrade
  | mdBookChange
  | mdHeartbeat
  deriving DecidableEq, Repr

def MsgType.byte : MsgType → UInt8
  | .newOrder => 1
  | .cancelOrder => 2
  | .modifyOrder => 3
  | .execReport => 10
  | .mdTrade => 20
  | .mdBookChange => 21
  | .mdHeartbeat => 22

structure Header where
  type : UInt8
  version : UInt8
  length : UInt16
  seq : UInt32
  deriving DecidableEq, Repr

def kHeaderSize : Nat := 8

structure NewOrder where
  orderId : OrderId
  clientId : ClientId
  side : UInt8
  type : UInt8
  price : Int64
  quantity : Quantity
  tsClient : TsNanos
  deriving DecidableEq, Repr

structure CancelOrder where
  orderId : OrderId
  clientId : ClientId
  tsClient : TsNanos
  deriving DecidableEq, Repr

structure ModifyOrder where
  orderId : OrderId
  clientId : ClientId
  price : Int64
  quantity : Quantity
  tsClient : TsNanos
  deriving DecidableEq, Repr

structure ExecReport where
  orderId : OrderId
  contraId : OrderId
  clientId : ClientId
  event : UInt8
  side : UInt8
  reason : UInt8
  flags : UInt8
  price : Int64
  quantity : Quantity
  leaves : Quantity
  tsClient : TsNanos
  tsEngine : TsNanos
  deriving DecidableEq, Repr, Inhabited

structure MdTrade where
  streamSeq : UInt64
  price : Int64
  quantity : Quantity
  aggressor : UInt8
  tsEngine : TsNanos
  deriving DecidableEq, Repr, Inhabited

structure MdBookChange where
  streamSeq : UInt64
  bidPx : Int64
  bidQty : Quantity
  askPx : Int64
  askQty : Quantity
  tsEngine : TsNanos
  deriving DecidableEq, Repr, Inhabited

structure MdHeartbeat where
  streamSeq : UInt64
  tsEngine : TsNanos
  deriving DecidableEq, Repr

/-! ## The primitive codec -/

structure Writer where
  out : Nat → UInt8
  cap : Nat
  n : Nat := 0
  ok : Bool := true

namespace Writer

def put (w : Writer) (p : List UInt8) : Writer :=
  if w.n + p.length > w.cap then { w with ok := false }
  else { w with out := overwrite w.out w.n p, n := w.n + p.length }

def u8 (w : Writer) (v : UInt8) : Writer := w.put [v]
def u16 (w : Writer) (v : UInt16) : Writer := w.put (leBytes 2 v.toNat)
def u32 (w : Writer) (v : UInt32) : Writer := w.put (leBytes 4 v.toNat)
def u64 (w : Writer) (v : UInt64) : Writer := w.put (leBytes 8 v.toNat)
def i64 (w : Writer) (v : Int64) : Writer := w.u64 v.toUInt64

/-- `return w.ok() ? w.size() : 0`, with the memory written. -/
def finish (w : Writer) : (Nat → UInt8) × Nat := (w.out, if w.ok then w.n else 0)

end Writer

structure Reader where
  buf : List UInt8
  n : Nat := 0
  ok : Bool := true

namespace Reader

def get (k : Nat) : StateM Reader (List UInt8) := fun r =>
  if r.n + k > r.buf.length then (List.replicate k 0, { r with ok := false })
  else ((r.buf.drop r.n).take k, { r with n := r.n + k })

def u8 : StateM Reader UInt8 := do return (← get 1).getD 0 0
def u16 : StateM Reader UInt16 := do return UInt16.ofNat (leValue (← get 2))
def u32 : StateM Reader UInt32 := do return UInt32.ofNat (leValue (← get 4))
def u64 : StateM Reader UInt64 := do return UInt64.ofNat (leValue (← get 8))
def i64 : StateM Reader Int64 := do return (← u64).toInt64

end Reader

/-! ## Encoding -/

def kNewOrderLen : UInt16 := .ofNat (kHeaderSize + 8 + 4 + 1 + 1 + 1 + 1 + 8 + 8 + 8)
def kCancelLen : UInt16 := .ofNat (kHeaderSize + 8 + 4 + 8)
def kModifyLen : UInt16 := .ofNat (kHeaderSize + 8 + 4 + 8 + 8 + 8)
def kExecLen : UInt16 := .ofNat (kHeaderSize + 8 + 8 + 4 + 1 + 1 + 1 + 1 + 8 + 8 + 8 + 8 + 8)
def kMdTradeLen : UInt16 := .ofNat (kHeaderSize + 8 + 8 + 8 + 1 + 8)
def kMdBookLen : UInt16 := .ofNat (kHeaderSize + 8 + 8 + 8 + 8 + 8 + 8)
def kMdHbLen : UInt16 := .ofNat (kHeaderSize + 8 + 8)

def putHeader (w : Writer) (t : MsgType) (seq : UInt32) (len : UInt16) : Writer :=
  w.u8 t.byte |>.u8 kVersion |>.u16 len |>.u32 seq

section
variable (out : Nat → UInt8) (cap : Nat) (seq : UInt32)

def encodeNewOrder (m : NewOrder) : (Nat → UInt8) × Nat :=
  putHeader ⟨out, cap, 0, true⟩ .newOrder seq kNewOrderLen
    |>.u64 m.orderId |>.u32 m.clientId |>.u8 m.side |>.u8 m.type |>.u8 0 |>.u8 0
    |>.i64 m.price |>.u64 m.quantity |>.u64 m.tsClient |>.finish

def encodeCancelOrder (m : CancelOrder) : (Nat → UInt8) × Nat :=
  putHeader ⟨out, cap, 0, true⟩ .cancelOrder seq kCancelLen
    |>.u64 m.orderId |>.u32 m.clientId |>.u64 m.tsClient |>.finish

def encodeModifyOrder (m : ModifyOrder) : (Nat → UInt8) × Nat :=
  putHeader ⟨out, cap, 0, true⟩ .modifyOrder seq kModifyLen
    |>.u64 m.orderId |>.u32 m.clientId |>.i64 m.price |>.u64 m.quantity |>.u64 m.tsClient |>.finish

def encodeExecReport (m : ExecReport) : (Nat → UInt8) × Nat :=
  putHeader ⟨out, cap, 0, true⟩ .execReport seq kExecLen
    |>.u64 m.orderId |>.u64 m.contraId |>.u32 m.clientId |>.u8 m.event |>.u8 m.side |>.u8 m.reason |>.u8 m.flags
    |>.i64 m.price |>.u64 m.quantity |>.u64 m.leaves |>.u64 m.tsClient |>.u64 m.tsEngine |>.finish

def encodeMdTrade (m : MdTrade) : (Nat → UInt8) × Nat :=
  putHeader ⟨out, cap, 0, true⟩ .mdTrade seq kMdTradeLen
    |>.u64 m.streamSeq |>.i64 m.price |>.u64 m.quantity |>.u8 m.aggressor |>.u64 m.tsEngine |>.finish

def encodeMdBookChange (m : MdBookChange) : (Nat → UInt8) × Nat :=
  putHeader ⟨out, cap, 0, true⟩ .mdBookChange seq kMdBookLen
    |>.u64 m.streamSeq |>.i64 m.bidPx |>.u64 m.bidQty |>.i64 m.askPx |>.u64 m.askQty |>.u64 m.tsEngine |>.finish

def encodeMdHeartbeat (m : MdHeartbeat) : (Nat → UInt8) × Nat :=
  putHeader ⟨out, cap, 0, true⟩ .mdHeartbeat seq kMdHbLen |>.u64 m.streamSeq |>.u64 m.tsEngine |>.finish

end

/-! ## Decoding -/

def peekHeader (bytes : List UInt8) : Option Header :=
  if bytes.length < kHeaderSize then none
  else
    let readHeader : StateM Reader Header := do
      return ⟨← Reader.u8, ← Reader.u8, ← Reader.u16, ← Reader.u32⟩
    let (h, r) := readHeader { buf := bytes }
    if ¬ r.ok ∨ h.length.toNat < kHeaderSize then none
    else if bytes.length < h.length.toNat then none
    else some h

def headerMatches (f : List UInt8) (t : MsgType) (len : UInt16) : Bool :=
  f.length == len.toNat && f.getD 0 0 == t.byte && f.getD 1 0 == kVersion

/-- What every decoder does around its own reads. -/
def decodeBody {M : Type} (t : MsgType) (len : UInt16) (read : StateM Reader M) (f : List UInt8) : Option M :=
  if headerMatches f t len then
    let (m, r) := read { buf := f.drop kHeaderSize }
    if r.ok then some m else none
  else none

def readNewOrder : StateM Reader NewOrder := do
  let orderId ← Reader.u64
  let clientId ← Reader.u32
  let side ← Reader.u8
  let type ← Reader.u8
  let _ ← Reader.u8
  let _ ← Reader.u8
  return ⟨orderId, clientId, side, type, ← Reader.i64, ← Reader.u64, ← Reader.u64⟩

def readCancelOrder : StateM Reader CancelOrder := do
  return ⟨← Reader.u64, ← Reader.u32, ← Reader.u64⟩

def readModifyOrder : StateM Reader ModifyOrder := do
  return ⟨← Reader.u64, ← Reader.u32, ← Reader.i64, ← Reader.u64, ← Reader.u64⟩

def readExecReport : StateM Reader ExecReport := do
  return ⟨← Reader.u64, ← Reader.u64, ← Reader.u32, ← Reader.u8, ← Reader.u8, ← Reader.u8, ← Reader.u8,
    ← Reader.i64, ← Reader.u64, ← Reader.u64, ← Reader.u64, ← Reader.u64⟩

def readMdTrade : StateM Reader MdTrade := do
  return ⟨← Reader.u64, ← Reader.i64, ← Reader.u64, ← Reader.u8, ← Reader.u64⟩

def readMdBookChange : StateM Reader MdBookChange := do
  return ⟨← Reader.u64, ← Reader.i64, ← Reader.u64, ← Reader.i64, ← Reader.u64, ← Reader.u64⟩

def readMdHeartbeat : StateM Reader MdHeartbeat := do
  return ⟨← Reader.u64, ← Reader.u64⟩

def decodeNewOrder : List UInt8 → Option NewOrder := decodeBody .newOrder kNewOrderLen readNewOrder
def decodeCancel : List UInt8 → Option CancelOrder := decodeBody .cancelOrder kCancelLen readCancelOrder
def decodeModify : List UInt8 → Option ModifyOrder := decodeBody .modifyOrder kModifyLen readModifyOrder
def decodeExecReport : List UInt8 → Option ExecReport := decodeBody .execReport kExecLen readExecReport
def decodeMdTrade : List UInt8 → Option MdTrade := decodeBody .mdTrade kMdTradeLen readMdTrade
def decodeMdBookChange : List UInt8 → Option MdBookChange := decodeBody .mdBookChange kMdBookLen readMdBookChange
def decodeMdHeartbeat : List UInt8 → Option MdHeartbeat := decodeBody .mdHeartbeat kMdHbLen readMdHeartbeat

/-! ## Any message -/

inductive Message where
  | newOrder (m : NewOrder)
  | cancelOrder (m : CancelOrder)
  | modifyOrder (m : ModifyOrder)
  | execReport (m : ExecReport)
  | mdTrade (m : MdTrade)
  | mdBookChange (m : MdBookChange)
  | mdHeartbeat (m : MdHeartbeat)
  deriving DecidableEq, Repr

def Message.type : Message → MsgType
  | .newOrder _ => .newOrder
  | .cancelOrder _ => .cancelOrder
  | .modifyOrder _ => .modifyOrder
  | .execReport _ => .execReport
  | .mdTrade _ => .mdTrade
  | .mdBookChange _ => .mdBookChange
  | .mdHeartbeat _ => .mdHeartbeat

def MsgType.frameLen : MsgType → UInt16
  | .newOrder => kNewOrderLen
  | .cancelOrder => kCancelLen
  | .modifyOrder => kModifyLen
  | .execReport => kExecLen
  | .mdTrade => kMdTradeLen
  | .mdBookChange => kMdBookLen
  | .mdHeartbeat => kMdHbLen

/-- The overloads of `encode`. -/
def encode (out : Nat → UInt8) (cap : Nat) (seq : UInt32) : Message → (Nat → UInt8) × Nat
  | .newOrder m => encodeNewOrder out cap seq m
  | .cancelOrder m => encodeCancelOrder out cap seq m
  | .modifyOrder m => encodeModifyOrder out cap seq m
  | .execReport m => encodeExecReport out cap seq m
  | .mdTrade m => encodeMdTrade out cap seq m
  | .mdBookChange m => encodeMdBookChange out cap seq m
  | .mdHeartbeat m => encodeMdHeartbeat out cap seq m

/-- The decoder of a type. -/
def decode : MsgType → List UInt8 → Option Message
  | .newOrder, f => (decodeNewOrder f).map .newOrder
  | .cancelOrder, f => (decodeCancel f).map .cancelOrder
  | .modifyOrder, f => (decodeModify f).map .modifyOrder
  | .execReport, f => (decodeExecReport f).map .execReport
  | .mdTrade, f => (decodeMdTrade f).map .mdTrade
  | .mdBookChange, f => (decodeMdBookChange f).map .mdBookChange
  | .mdHeartbeat, f => (decodeMdHeartbeat f).map .mdHeartbeat

/-- The bytes of a message, as `encode` leaves them in a buffer with room. -/
def frame (seq : UInt32) (m : Message) : List UInt8 :=
  (List.range m.type.frameLen.toNat).map (encode (fun _ => 0) m.type.frameLen.toNat seq m).1

end Wire

end Lob
