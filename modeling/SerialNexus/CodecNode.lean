import SerialNexus.Codec
import SerialNexus.FanOut
import SerialNexus.IdentitySet

/-! # The hostward side of a codec node

`hostward_demux` (`daemon/src/nodes/codec.rs`) gives each multiplexed chunk to the codec's transform
and routes the events of the call.  A transform, which is any function, may emit events and refuse
the chunk all the same; a refusal is charged and faults the node.

A turn of the loop has no await in it, so one chunk is one step.  Taps, log lines and the times of
status changes are left out. -/

namespace SerialNexus

open Function

def demuxFaultPrefix : String := "codec demux error: "

def noUpstreamReason : String := "multiplexed side has no attached upstream"

structure UnconfiguredChannels where
  set : IdentitySet
  bytes : ℕ
deriving DecidableEq

def UnconfiguredChannels.record (u : UnconfiguredChannels) (id : String) (n : ℕ) :
    UnconfiguredChannels :=
  { set := (u.set.insert id).2, bytes := wrappingAdd u.bytes n }

structure DemuxHealth where
  errors : ℕ
  discardedHostward : ℕ
  faulted : Bool
  last : Option String
deriving DecidableEq

def Event.dataLen (event : Event) : ℕ :=
  match event.kind with
  | .data bytes => bytes.length
  | .opened | .closed | .error _ => 0

def salvaged (events : List Event) : ℕ := (events.map Event.dataLen).sum

inductive DataFate where
  | delivered
  | droppedFull
  | unattached
  | unconfigured
deriving DecidableEq, Repr

structure RoutedData where
  channel : String
  bytes : Chunk
  fate : DataFate
  fullAt : List ℕ
deriving DecidableEq, Repr

structure CodecNode (σ : Type*) where
  codec : σ
  stats : String → Option HostwardChannelStat
  sinks : String → Option (List FanOutSink)
  buffers : Buffers
  unconfigured : UnconfiguredChannels
  demux : DemuxHealth
  status : NodeStatus
  attached : Bool
  pending : List Chunk
  processed : List Chunk
  log : List RoutedData
  since : List (Option String)
  given : List ℕ

inductive CodecNodeAct where
  | arrive (chunk : Chunk)
  | demux
  | setUpstreamAttached (attached : Bool)
  | attach (channel : String) (sink : FanOutSink) (cap : ℕ)
  | detach (channel : String) (target : EndpointAddr)
  | receive (k : ℕ)
  | hangUp (k : ℕ)

namespace CodecNode

variable {σ : Type*}

def start (codec : σ) (channels : Finset String) (wired : String → Bool) (attached : Bool) :
    CodecNode σ where
  codec
  stats c := if c ∈ channels then some ⟨false, 0, 0, false⟩ else none
  sinks c := if wired c then some [] else none
  buffers := ⟨fun _ => .new 0, fun _ => 0⟩
  unconfigured := ⟨.empty, 0⟩
  demux := ⟨0, 0, false, none⟩
  status := if attached then .active else .waiting noUpstreamReason
  attached
  pending := []
  processed := []
  log := []
  since := []
  given := []

variable (s : CodecNode σ)

def noteDemuxError (chunkLen salvaged : ℕ) (reason : String) : CodecNode σ :=
  let d : DemuxHealth :=
    { s.demux with
      errors := wrappingAdd s.demux.errors 1
      discardedHostward := wrappingAdd s.demux.discardedHostward (chunkLen - salvaged)
      last := some reason }
  if s.demux.last = some reason ∧ s.demux.faulted then { s with demux := d }
  else
    { s with
      demux := { d with faulted := true }
      status := .faulted (demuxFaultPrefix ++ reason) }

def clearDemuxFault : CodecNode σ :=
  { s with
    demux := { s.demux with faulted := false }
    status :=
      match s.status with
      | .faulted reason =>
        if demuxFaultPrefix.toList.isPrefixOf reason.toList then .active else .faulted reason
      | status => status }

def noteResult (chunk : Chunk) (events : List Event) : Except CodecError Unit → CodecNode σ
  | .error e => s.noteDemuxError chunk.length (salvaged events) e.display
  | .ok () => if s.demux.faulted then s.clearDemuxFault else s

/-! ### Events -/

def taker (l : List FanOutSink) : Bool := l.any fun sink => fate (s.buffers.chans sink.tx) = some true

def live (l : List FanOutSink) : Bool := l.any fun sink => (s.buffers.chans sink.tx).isOpen

def fateOf (channel : String) : DataFate :=
  match s.stats channel, s.sinks channel with
  | none, _ => .unconfigured
  | some _, none => .unattached
  | some _, some l => if s.taker l then .delivered else if s.live l then .droppedFull else .unattached

def fullAt (channel : String) : List ℕ :=
  match s.stats channel, s.sinks channel with
  | some _, some l =>
    (l.filter fun sink => fate (s.buffers.chans sink.tx) = some false).map (·.counters)
  | _, _ => []

def routeEvent (event : Event) : CodecNode σ :=
  match event.kind, s.stats event.channel with
  | .data bytes, none =>
    { s with
      unconfigured := s.unconfigured.record event.channel bytes.length
      log := s.log ++ [⟨event.channel, bytes, s.fateOf event.channel, s.fullAt event.channel⟩] }
  | .data bytes, some stat =>
    let (buffers, stat) := routeChannelData bytes (s.sinks event.channel) s.buffers (some stat)
    { s with
      buffers
      stats := update s.stats event.channel stat
      log := s.log ++ [⟨event.channel, bytes, s.fateOf event.channel, s.fullAt event.channel⟩] }
  | .opened, some stat =>
    { s with stats := update s.stats event.channel (some { stat with active := true }) }
  | .opened, none => { s with unconfigured := s.unconfigured.record event.channel 0 }
  | .closed, some stat =>
    { s with stats := update s.stats event.channel (some { stat with active := false }) }
  | .closed, none => s
  | .error _, _ => s

theorem foldl_routeEvent_frame (events : List Event) :
    ∃ buffers stats unconfigured log,
      events.foldl routeEvent s = { s with buffers, stats, unconfigured, log } := by
  induction events generalizing s with
  | nil => exact ⟨s.buffers, s.stats, s.unconfigured, s.log, rfl⟩
  | cons event events ih =>
    obtain ⟨buffers, stats, unconfigured, log, heq⟩ := ih (s.routeEvent event)
    refine ⟨buffers, stats, unconfigured, log, heq.trans ?_⟩
    unfold routeEvent
    split <;> rfl

variable (transform : σ → Chunk → Demuxed σ)

def verdict : Except CodecError Unit → Option String
  | .error e => some e.display
  | .ok () => none

def recordCall (chunk : Chunk) (call : Demuxed σ) : CodecNode σ :=
  { s with
    codec := call.codec
    processed := s.processed ++ [chunk]
    since := s.since ++ [verdict call.result] }

def demuxChunk (chunk : Chunk) : CodecNode σ :=
  let call := transform s.codec chunk
  call.events.foldl routeEvent ((s.recordCall chunk call).noteResult chunk call.events call.result)

def setUpstreamAttached (attached : Bool) : CodecNode σ :=
  { s with
    attached
    demux := { s.demux with faulted := false }
    status := if attached then .active else .waiting noUpstreamReason
    since := [] }

def setChan (k : ℕ) (chan : Channel Chunk) : CodecNode σ :=
  { s with buffers := { s.buffers with chans := update s.buffers.chans k chan } }

def step : CodecNodeAct → CodecNode σ
  | .arrive chunk => { s with pending := s.pending ++ [chunk] }
  | .demux =>
    match s.pending with
    | [] => s
    | chunk :: rest => { s with pending := rest }.demuxChunk transform chunk
  | .setUpstreamAttached attached => s.setUpstreamAttached attached
  | .attach channel sink cap =>
    { s.setChan sink.tx (.new cap) with
      sinks := update s.sinks channel ((s.sinks channel).map (· ++ [sink]))
      given := s.given ++ [sink.tx] }
  | .detach channel target =>
    { s with
      sinks := update s.sinks channel
        ((s.sinks channel).map fun l => l.filter (·.target ≠ target)) }
  | .receive k => s.setChan k (s.buffers.chans k).recv.2
  | .hangUp k => s.setChan k (s.buffers.chans k).hangUp

def Allowed : CodecNodeAct → Prop
  | .arrive _ => s.attached = true
  | .attach _ sink _ => sink.tx ∉ s.given
  | .demux | .setUpstreamAttached _ | .detach _ _ | .receive _ | .hangUp _ => True

instance : ∀ a, Decidable (s.Allowed a)
  | .arrive _ => inferInstanceAs (Decidable (s.attached = true))
  | .attach _ sink _ => inferInstanceAs (Decidable (sink.tx ∉ s.given))
  | .demux | .setUpstreamAttached _ | .detach _ _ | .receive _ | .hangUp _ => .isTrue trivial

def machine : Runs.Machine (CodecNode σ) CodecNodeAct := ⟨fun s => s.step transform, Allowed⟩

instance (a : CodecNodeAct) : Decidable ((machine transform).ok s a) :=
  inferInstanceAs (Decidable (s.Allowed a))

end CodecNode
end SerialNexus
