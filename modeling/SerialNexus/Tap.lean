import SerialNexus.Channel
import SerialNexus.CircularBuffer
import SerialNexus.Chunks
import SerialNexus.Pattern

/-! # The tap hub

The observation path of `daemon/src/tap.rs`.  A producer mirrors its bytes into the feed of an
endpoint (`mirror`, `skipped`); the hub drains the feed chunk by chunk (`ingest`) into the replay
ring, the registered taps and the armed pattern waits.  A tap holds the id of its control
connection, which several taps may share, and the hub's operations take and return the connections.
-/

namespace SerialNexus

def maxArmedWaits : ℕ := 64

def replayPiece : ℕ := 64 * 1024

inductive TapMsg where
  | data (tapId : ℕ) (bytes : Chunk) (offset gapBefore : ℕ)
  | closed (tapId : ℕ) (endpoint reason : String)
deriving DecidableEq, Repr

def TapMsg.tapId : TapMsg → ℕ
  | .data id _ _ _ => id
  | .closed id _ _ => id

structure Conn where
  out : Channel TapMsg
  lane : List TapMsg

abbrev ConnId := ℕ

abbrev Conns := ConnId → Conn

def Conns.trySend (conns : Conns) (c : ConnId) (msg : TapMsg) : TrySend × Conns :=
  let (answer, out) := (conns c).out.trySend msg
  (answer, Function.update conns c { conns c with out })

structure Registered where
  replayBytes : ℕ
  replayTruncated : ℕ
  fromOffset : ℕ
  epoch : ℕ
  feedDropped : ℕ
deriving DecidableEq, Repr

inductive TapCloseReason where
  | endpointRemoved
  | graphReplaced
  | teardown
deriving DecidableEq, Repr

def TapCloseReason.asStr : TapCloseReason → String
  | .endpointRemoved => "endpoint removed"
  | .graphReplaced => "graph replaced"
  | .teardown => "teardown"

structure WaitAccounting where
  bytesScanned : ℕ
  gaps : ℕ
  gapBytes : ℕ
  fromOffset : ℕ
  epoch : ℕ
  replayScanned : ℕ
deriving DecidableEq, Repr

inductive WaitEnd where
  | matched (hit : PatternMatch) (accounting : WaitAccounting)
  | closed (reason : TapCloseReason) (accounting : WaitAccounting)
deriving DecidableEq, Repr

inductive Armed where
  | alreadyMatched (hit : PatternMatch) (accounting : WaitAccounting)
  | parked
  | refused (armed max : ℕ)
deriving DecidableEq, Repr

structure ArmedWait where
  id : ℕ
  scan : ScanWindow
  fromOffset : ℕ
  replayScanned : ℕ
  pendingGapCredit : ℕ
  done : Bool

def ArmedWait.accounting (w : ArmedWait) (epoch : ℕ) : WaitAccounting where
  bytesScanned := w.scan.scanned
  gaps := w.scan.gaps
  gapBytes := w.scan.gapBytes
  fromOffset := w.fromOffset
  epoch := epoch
  replayScanned := w.replayScanned

structure Tap where
  id : ℕ
  out : ConnId
  terminal : Option ConnId
  dropped : ℕ
deriving DecidableEq, Repr

abbrev ReplayRing := CircularBuffer UInt8

structure TapHub where
  taps : List Tap
  waits : List ArmedWait
  ring : Option ReplayRing
  ingested : ℕ
  active : Bool
  feedDropped : ℕ
  feedDroppedSeen : ℕ
  ringGap : Option (ℕ × ℕ)
  orphaned : Bool
  endpoint : String
  epoch : ℕ

namespace TapHub

def new (endpoint : String) (ringCap epoch : ℕ) : TapHub where
  taps := []
  waits := []
  ring := if ringCap > 0 then some (CircularBuffer.new ringCap) else none
  ingested := 0
  active := decide (ringCap > 0)
  feedDropped := 0
  feedDroppedSeen := 0
  ringGap := none
  orphaned := false
  endpoint := endpoint
  epoch := epoch

variable (h : TapHub)

def refreshActive : TapHub :=
  { h with
    active := !h.orphaned && (h.ring.isSome || !h.taps.isEmpty || !h.waits.isEmpty) }

def skipped (n : ℕ) : TapHub := { h with feedDropped := wrappingAdd h.feedDropped n }

def carry (feed : Channel Chunk) (chunk : Chunk) : TapHub × Channel Chunk :=
  match feed.trySend chunk with
  | (.ok, feed) => (h, feed)
  | (_, feed) => (h.skipped chunk.length, feed)

def mirror (feed : Channel Chunk) (chunk : Chunk) : TapHub × Channel Chunk :=
  if h.active then h.carry feed chunk else (h.skipped chunk.length, feed)

def fanOut (chunk : Chunk) (offset gapBefore : ℕ) : List Tap → Conns → List Tap × Conns
  | [], conns => ([], conns)
  | tap :: taps, conns =>
    let (answer, conns) := conns.trySend tap.out (.data tap.id chunk offset gapBefore)
    let (kept, conns) := fanOut chunk offset gapBefore taps conns
    match answer with
    | .ok => (tap :: kept, conns)
    | .full => ({ tap with dropped := tap.dropped + chunk.length } :: kept, conns)
    | .closed => (kept, conns)

def feedWaits (chunk : Chunk) (gapBefore epoch : ℕ) :
    List ArmedWait → List ArmedWait × List (ℕ × WaitEnd)
  | [] => ([], [])
  | wait :: waits =>
    let mine := gapBefore - wait.pendingGapCredit
    let (hit, scan) := wait.scan.feed chunk mine
    let wait := { wait with pendingGapCredit := 0, scan }
    let (kept, ended) := feedWaits chunk gapBefore epoch waits
    match hit with
    | none => (wait :: kept, ended)
    | some hit =>
      (kept, if wait.done then (wait.id, .matched hit (wait.accounting epoch)) :: ended else ended)

def gapBefore : ℕ := wrappingSub h.feedDropped h.feedDroppedSeen

def ingest (conns : Conns) (chunk : Chunk) : TapHub × Conns × List (ℕ × WaitEnd) :=
  let gap := h.gapBefore
  let (taps, conns) := fanOut chunk h.ingested gap h.taps conns
  let (waits, ended) := feedWaits chunk gap h.epoch h.waits
  let h' : TapHub :=
    { h with
      feedDroppedSeen := h.feedDropped
      ringGap := if h.ring.isSome ∧ gap > 0 then some (h.ingested, gap) else h.ringGap
      ring := h.ring.map (·.push chunk)
      taps
      waits
      ingested := wrappingAdd h.ingested chunk.length }
  (h'.refreshActive, conns, ended)

def replayWindow (ring : ReplayRing) : Chunk × ℕ × ℕ :=
  let snap := ring.snapshot
  let fromOffset := h.ingested - snap.length
  match h.ringGap with
  | some (at_, bytes) =>
    if at_ > fromOffset then (snap.drop (min (at_ - fromOffset) snap.length), at_, bytes)
    else (snap, fromOffset, 0)
  | none => (snap, fromOffset, 0)

def openingScan (matcher : Matcher) (lookback context : ℕ) (replay : Bool) :
    Option PatternMatch × ScanWindow × ℕ × ℕ :=
  let scan := ScanWindow.new matcher lookback context h.ingested
  match replay, h.ring with
  | true, some ring =>
    let (snap, fromOffset, excluded) := h.replayWindow ring
    let (hit, scan) := scan.seed snap fromOffset excluded
    (hit, scan, fromOffset, snap.length)
  | _, _ => (none, scan, h.ingested, 0)

def armWait (id : ℕ) (matcher : Matcher) (lookback context : ℕ) (replay : Bool) : Armed × TapHub :=
  if h.waits.length ≥ maxArmedWaits then (.refused h.waits.length maxArmedWaits, h)
  else
    let (hit, scan, fromOffset, replayScanned) := h.openingScan matcher lookback context replay
    let wait : ArmedWait :=
      { id, scan, fromOffset, replayScanned, pendingGapCredit := h.gapBefore, done := true }
    match hit with
    | some hit => (.alreadyMatched hit (wait.accounting h.epoch), h)
    | none => (.parked, { h with waits := h.waits ++ [wait] }.refreshActive)

def disarm (id : ℕ) : Option WaitAccounting × TapHub :=
  match h.waits.find? fun w => w.id = id with
  | none => (none, h)
  | some wait =>
    (some (wait.accounting h.epoch), { h with waits := h.waits.eraseP (·.id = id) }.refreshActive)

def sendPieces (id : ℕ) (c : ConnId) : List Chunk → ℕ → ℕ → Conns → ℕ × ℕ × Conns
  | [], _, dropped, conns => (0, dropped, conns)
  | piece :: pieces, offset, dropped, conns =>
    match conns.trySend c (.data id piece offset 0) with
    | (.ok, conns) =>
      let (sent, dropped, conns) := sendPieces id c pieces (offset + piece.length) dropped conns
      (piece.length + sent, dropped, conns)
    | (.full, conns) =>
      sendPieces id c pieces (offset + piece.length) (dropped + piece.length) conns
    | (.closed, conns) => (0, dropped, conns)

def replayBudget (out : Channel TapMsg) : ℕ := saturatingMul out.capacity replayPiece

def register (conns : Conns) (id : ℕ) (c : ConnId) (dropped : ℕ) (replay : Bool) :
    Registered × TapHub × Conns :=
  let (replayBytes, replayTruncated, fromOffset, dropped, conns) :=
    match replay, h.ring with
    | true, some ring =>
      let snap := ring.snapshot
      let deliver := min snap.length (replayBudget (conns c).out)
      let fromOffset := h.ingested - deliver
      let pieces := Chunks.chunks replayPiece (snap.drop (snap.length - deliver))
      let (sent, dropped, conns) := sendPieces id c pieces fromOffset dropped conns
      (sent, snap.length - deliver, fromOffset, dropped, conns)
    | _, _ => (0, 0, h.ingested, dropped, conns)
  let tap : Tap := { id, out := c, terminal := none, dropped }
  let h' : TapHub := { h with taps := h.taps ++ [tap] }
  ({ replayBytes, replayTruncated, fromOffset, epoch := h.epoch, feedDropped := h.feedDroppedSeen },
    h'.refreshActive, conns)

def setTerminal (id : ℕ) (c : ConnId) : List Tap → List Tap
  | [] => []
  | tap :: taps =>
    if tap.id = id then { tap with terminal := some c } :: taps else tap :: setTerminal id c taps

def attachTerminal (id : ℕ) (c : ConnId) : TapHub := { h with taps := setTerminal id c h.taps }

def close (id : ℕ) : TapHub := { h with taps := h.taps.filter (·.id ≠ id) }.refreshActive

def tellClosed (endpoint reason : String) (tap : Tap) (conns : Conns) : Conns :=
  let closed := TapMsg.closed tap.id endpoint reason
  let (answer, conns) := conns.trySend tap.out closed
  match answer, tap.terminal with
  | .full, some c => Function.update conns c { conns c with lane := (conns c).lane ++ [closed] }
  | _, _ => conns

def closeTaps (endpoint reason : String) : List Tap → Conns → Conns
  | [], conns => conns
  | tap :: taps, conns =>
    closeTaps endpoint reason taps (tellClosed endpoint reason tap conns)

def detachAll (conns : Conns) (reason : TapCloseReason) :
    List ℕ × TapHub × Conns × List (ℕ × WaitEnd) :=
  (h.taps.map (·.id),
    { h with taps := [], waits := [], ring := none, orphaned := true, active := false },
    closeTaps h.endpoint reason.asStr h.taps conns,
    (h.waits.filter (·.done)).map fun w => (w.id, .closed reason (w.accounting h.epoch)))

end TapHub
end SerialNexus
