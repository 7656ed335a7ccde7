import Hermes.Data.Bytes

/-!
# The hybrid logical clock

A timestamp is one signed number: the milliseconds of a physical clock and, in the low
sixteen bits, a counter for the events of one millisecond.  The clock of a node never
falls behind the timestamps that it has handed out or seen.
-/

namespace Hermes.Clock

abbrev HLCTimestamp := Int64

def logicalMax : ℕ := 2 ^ 16 - 1

/-- `MaxClockSkew` in milliseconds. -/
def maxClockSkew : Int64 := 500

def pack (physicalMs : Int64) (logical : UInt16) : HLCTimestamp :=
  (physicalMs <<< 16) ||| logical.toUInt64.toInt64

def unpack (ts : HLCTimestamp) : Int64 × UInt16 :=
  (ts >>> 16, (ts &&& 65535).toUInt64.toUInt16)

/-- `ToBytes`. -/
def toBytes (ts : HLCTimestamp) : Bytes :=
  beBytes 8 ts.toUInt64.toNat

/-- `HLCTimestampFromBytes` of at least eight bytes. -/
def fromBytes (b : Bytes) : HLCTimestamp :=
  (UInt64.ofNat (beValue (b.take 8))).toInt64

structure HLC where
  l : Int64 := 0
  c : UInt16 := 0
  maxSkewAllowed : Int64 := maxClockSkew
  deriving DecidableEq, Repr

/-- The timestamp of a message is too far ahead of the physical clock. -/
structure TooFarInFuture where
  msgL : Int64
  ptMs : Int64
  maxFutureMs : Int64
  deriving DecidableEq, Repr

namespace HLC

/-- `Now` at a reading of the physical clock. -/
def now (h : HLC) (ptMs : Int64) : HLC × HLCTimestamp :=
  let lNew := if h.l > ptMs then h.l else ptMs
  if lNew = h.l then
    let c := h.c + 1
    -- the comparison cannot hold for a counter of sixteen bits
    if c.toNat > logicalMax then ({ h with l := lNew + 1, c := 0 }, pack (lNew + 1) 0)
    else ({ h with l := lNew, c := c }, pack lNew c)
  else ({ h with l := lNew, c := 0 }, pack lNew 0)

/-- `Update` with the timestamp of a message. -/
def update (h : HLC) (ptMs : Int64) (msgTS : HLCTimestamp) :
    Except TooFarInFuture (HLC × HLCTimestamp) :=
  let (msgL, msgC) := unpack msgTS
  let maxFutureMs := ptMs + h.maxSkewAllowed
  if msgL > maxFutureMs then
    .error { msgL := msgL, ptMs := ptMs, maxFutureMs := maxFutureMs }
  else
    let lNew := if h.l > ptMs then h.l else ptMs
    let lNew := if msgL > lNew then msgL else lNew
    let cNew :=
      if lNew = h.l ∧ lNew = msgL then (if msgC > h.c then msgC else h.c) + 1
      else if lNew = h.l then h.c + 1
      else if lNew = msgL then msgC + 1
      else 0
    .ok ({ h with l := lNew, c := cNew }, pack lNew cNew)

end HLC

theorem fromBytes_toBytes (ts : HLCTimestamp) : fromBytes (toBytes ts) = ts := by
  unfold fromBytes toBytes
  rw [List.take_of_length_le (Nat.le_of_eq (length_beBytes 8 _)),
    beValue_beBytes ts.toUInt64.toNat_lt,
    UInt64.ofNat_toNat, Int64.toInt64_toUInt64]

end Hermes.Clock
