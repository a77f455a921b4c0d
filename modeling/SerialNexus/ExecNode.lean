import Mathlib.Algebra.BigOperators.Group.Finset.Basic
import SerialNexus.TargetwardInbox
import SerialNexus.Wire

/-! # The exec codec's targetward side

An exec codec (`daemon/src/nodes/exec.rs`) runs a child process.  What its channels accept goes
through two watched queues on its way to the child: each channel's own, and the merge queue that a
forwarder per channel fills and the supervisor's feed empties, a frame at a time, into the child's
stdin.  What the child says on the multiplexed channel is decoded from its stdout and sent on to the
device.

A step is what one task does between two awaits.  The feed and the stdout reader are futures of the
supervisor's task: when one of them ends, the other is dropped where it stands (`race3`).  The raw
device stream rides in the merge queue too and weighs nothing here.  What is routed hostward, the
restart count, the statuses and the child's stderr are left out. -/

namespace SerialNexus

open Function

def muxChannel : String := ""

structure FeedItem where
  channel : String
  bytes : Chunk
deriving DecidableEq

instance : TeardownBytes FeedItem :=
  ⟨fun item => if item.channel = muxChannel then 0 else item.bytes.length⟩

inductive FeedEnd where
  | done
  | asleep (rest : List DataFrame)
  | broken (rest : List DataFrame)
deriving DecidableEq

def FeedEnd.rest : FeedEnd → List DataFrame
  | .done => []
  | .asleep rest => rest
  | .broken rest => rest

def feedFrames : List Bool → List DataFrame → List DataFrame × ℕ × FeedEnd
  | _, [] => ([], 0, .done)
  | answers, .residual n :: items =>
    let (written, lost, ended) := feedFrames answers items
    (written, lost + n, ended)
  | [], item :: items => ([], 0, .asleep (item :: items))
  | true :: answers, item :: items =>
    let (written, lost, ended) := feedFrames answers items
    (item :: written, lost, ended)
  | false :: _, item :: items => ([], 0, .broken (item :: items))

/-! ### The node -/

inductive Forwarder where
  | waiting
  | sending (chunk : Chunk)
  | finished
deriving DecidableEq

inductive FeedPhase where
  | waiting
  | writing (channel : String) (rest : List DataFrame)
deriving DecidableEq

inductive ReadPhase where
  | reading
  | decoding
  | locking (k : ℕ) (bytes : Chunk)
  | sending (k : ℕ) (bytes : Chunk)
deriving DecidableEq

def ReadPhase.isRouting : ReadPhase → Bool
  | .locking _ _ | .sending _ _ => true
  | _ => false

inductive ExecPhase where
  | down
  | pumping
  | finished
  | stopped
deriving DecidableEq

inductive Reacquire where
  | granted
  | refused
  | pending
deriving DecidableEq

/-- Counters are tallies, which `u64` cells show modulo `2 ^ 64`. -/
structure ExecNode where
  inboxes : String → TargetwardInbox Chunk
  senders : String → Bool
  forwarders : String → Forwarder
  src : TargetwardInbox FeedItem
  muxForwarder : Bool
  phase : ExecPhase
  feed : FeedPhase
  read : ReadPhase
  decoder : FrameDecoder
  edge : Option ℕ
  devices : ℕ → Channel Chunk
  unframableDiscarded : ℕ
  muxDiscardedTargetward : ℕ
  discardedAtTeardown : ℕ
  fed : List (String × DataFrame)
  accepted : ℕ
  decoded : ℕ
  toDevice : ℕ

inductive ExecAct where
  | push (c : String) (chunk : Chunk)
  | sendersGone (c : String)
  | forward (c : String)
  | muxFeed (bytes : Chunk)
  | muxGone
  | spawn (ok : Bool)
  | pollFeed (answers : List Bool)
  | readStdout (bytes : List UInt8)
  | stdoutEnds
  | nextEvent (lock : Reacquire)
  | resumeRoute (lock : Reacquire)
  | setEdge (edge : Option ℕ)
  | deviceReceives (k : ℕ)
  | deviceGone (k : ℕ)
  | signalStop
deriving DecidableEq

namespace ExecNode

def start (cap : ℕ) (muxForwarder : Bool) (edge : Option ℕ) (devices : ℕ → Channel Chunk) :
    ExecNode where
  inboxes _ := .new (.new cap)
  senders _ := true
  forwarders _ := .waiting
  src := .new (.new cap)
  muxForwarder
  phase := .down
  feed := .waiting
  read := .reading
  decoder := .new
  edge
  devices
  unframableDiscarded := 0
  muxDiscardedTargetward := 0
  discardedAtTeardown := 0
  fed := []
  accepted := 0
  decoded := 0
  toDevice := 0

section definitions
variable (s : ExecNode)

def push (c : String) (chunk : Chunk) : ExecNode :=
  let (accepted, inbox) := (s.inboxes c).accept chunk
  { s with
    inboxes := update s.inboxes c inbox
    accepted := if accepted then s.accepted + chunk.length else s.accepted }

def sendToMerge (c : String) (chunk : Chunk) : ExecNode :=
  let (accepted, src) := s.src.accept ⟨c, chunk⟩
  if accepted then
    { s with
      src
      inboxes := update s.inboxes c (s.inboxes c).settleHeld
      forwarders := update s.forwarders c .waiting }
  else if s.src.slot.isSome then
    { s with forwarders := update s.forwarders c (.sending chunk) }
  else { s with forwarders := update s.forwarders c .finished }

def forward (c : String) : ExecNode :=
  match s.forwarders c with
  | .waiting =>
    match (s.inboxes c).settleHeld.pollRecv (s.senders c) with
    | (.ready (some chunk), inbox) =>
      { s with inboxes := update s.inboxes c inbox }.sendToMerge c chunk
    | (.ready none, inbox) =>
      { s with
        inboxes := update s.inboxes c inbox
        forwarders := update s.forwarders c .finished }
    | (.pending, inbox) => { s with inboxes := update s.inboxes c inbox }
  | .sending chunk => s.sendToMerge c chunk
  | .finished => s

def sourceOpen (channels : Finset String) : Bool :=
  s.muxForwarder || decide (∃ c ∈ channels, s.forwarders c ≠ .finished)

def endPump (phase : ExecPhase) : ExecNode := { s with phase, feed := .waiting, read := .reading }

def feedChunk (channel : String) (items : List DataFrame) (answers : List Bool) : ExecNode :=
  let (written, lost, ended) := feedFrames answers items
  let s := { s with
    fed := s.fed ++ written.map (channel, ·)
    unframableDiscarded := s.unframableDiscarded + lost }
  match ended with
  | .done => { s with src := s.src.settleHeld, feed := .waiting }
  | .asleep rest => { s with feed := .writing channel rest }
  | .broken _ => s.endPump .down

def pollFeed (channels : Finset String) (answers : List Bool) : ExecNode :=
  match s.feed with
  | .writing channel rest => s.feedChunk channel rest answers
  | .waiting =>
    match s.src.settleHeld.pollRecv (s.sourceOpen channels) with
    | (.ready (some item), src) =>
      { s with src }.feedChunk item.channel (dataFrames item.channel item.bytes) answers
    | (.ready none, src) => { s with src }.endPump .finished
    | (.pending, src) => { s with src }

def chargeMux (n : ℕ) : ExecNode :=
  { s with muxDiscardedTargetward := s.muxDiscardedTargetward + n, read := .decoding }

def sendToDevice (k : ℕ) (bytes : Chunk) : ExecNode :=
  match (s.devices k).trySend bytes with
  | (.ok, chan) =>
    { s with
      devices := update s.devices k chan
      toDevice := s.toDevice + bytes.length
      read := .decoding }
  | (.full, _) => { s with read := .sending k bytes }
  | (.closed, _) => s.chargeMux bytes.length

def forwardTargetward (k : ℕ) (bytes : Chunk) : Reacquire → ExecNode
  | .granted => s.sendToDevice k bytes
  | .refused => s.chargeMux bytes.length
  | .pending => { s with read := .locking k bytes }

def routeMux (bytes : Chunk) (lock : Reacquire) : ExecNode :=
  match s.edge with
  | some k => s.forwardTargetward k bytes lock
  | none => s.chargeMux bytes.length

def routeEvent (event : Event) (lock : Reacquire) : ExecNode :=
  match event.kind with
  | .data bytes =>
    if event.channel = muxChannel then
      { s with decoded := s.decoded + bytes.length }.routeMux bytes lock
    else { s with read := .decoding }
  | .opened | .closed | .error _ => { s with read := .decoding }

def nextEvent (lock : Reacquire) : ExecNode :=
  match s.decoder.nextEvent with
  | (.ok (some event), decoder) => { s with decoder }.routeEvent event lock
  | (.ok none, decoder) => { s with decoder, read := .reading }
  | (.error _, decoder) => { s with decoder }.endPump .down

def resumeRoute (lock : Reacquire) : ExecNode :=
  match s.read with
  | .locking k bytes => s.forwardTargetward k bytes lock
  | .sending k bytes => s.sendToDevice k bytes
  | .reading | .decoding => s

def signalStop (channels : Finset String) : ExecNode :=
  let lost := s.src.drainAndCount.1 + ∑ c ∈ channels, (s.inboxes c).drainAndCount.1
  { s.endPump .stopped with
    src := s.src.drainAndCount.2
    inboxes := fun c => (s.inboxes c).drainAndCount.2
    forwarders := fun _ => .finished
    muxForwarder := false
    discardedAtTeardown :=
      if lost > 0 then s.discardedAtTeardown + lost else s.discardedAtTeardown }

def step (channels : Finset String) : ExecAct → ExecNode
  | .push c chunk => s.push c chunk
  | .sendersGone c => { s with senders := update s.senders c false }
  | .forward c => s.forward c
  | .muxFeed bytes => { s with src := (s.src.accept ⟨muxChannel, bytes⟩).2 }
  | .muxGone => { s with muxForwarder := false }
  | .spawn ok => if ok then { s with phase := .pumping, decoder := .new } else s
  | .pollFeed answers => s.pollFeed channels answers
  | .readStdout bytes => { s with decoder := s.decoder.push bytes, read := .decoding }
  | .stdoutEnds => s.endPump .down
  | .nextEvent lock => s.nextEvent lock
  | .resumeRoute lock => s.resumeRoute lock
  | .setEdge edge => { s with edge }
  | .deviceReceives k =>
    { s with devices := update s.devices k (s.devices k).recv.2 }
  | .deviceGone k =>
    { s with devices := update s.devices k (s.devices k).hangUp }
  | .signalStop => s.signalStop channels

def Allowed (channels : Finset String) : ExecAct → Prop
  | .push c _ => c ∈ channels
  | .forward c => c ∈ channels ∧ s.phase ≠ .stopped
  | .muxFeed _ => s.muxForwarder = true
  | .spawn _ => s.phase = .down
  | .pollFeed _ => s.phase = .pumping
  | .readStdout bytes => bytes ≠ [] ∧ s.phase = .pumping ∧ s.read = .reading
  | .stdoutEnds => s.phase = .pumping ∧ s.read = .reading
  | .nextEvent _ => s.phase = .pumping ∧ s.read = .decoding
  | .resumeRoute _ => s.phase = .pumping ∧ s.read.isRouting = true
  | .sendersGone _ | .muxGone | .setEdge _ | .deviceReceives _ | .deviceGone _ | .signalStop =>
    True

def machine (channels : Finset String) : Runs.Machine ExecNode ExecAct :=
  ⟨fun s => s.step channels, fun s => s.Allowed channels⟩

end definitions
end ExecNode
end SerialNexus
