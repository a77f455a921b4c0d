import SerialNexus.Channel
import SerialNexus.Lock
import SerialNexus.Config

/-! # The wiring of a graph

The shared objects behind a running graph and how an edge joins them (`daemon/src/runtime.rs`):
`attach_edge`, and `Wiring::build`, which makes the objects of every endpoint and attaches every
configured edge.

A lock outlives its endpoint (a `send` may still hold it), so locks live in `cells`, by reference.
Every other object is changed through the map that owns it only, and is kept there by value.  Tap
hubs and the receiving halves handed to the nodes' tasks are left out. -/

namespace SerialNexus

open Function
open Std (ExtTreeMap)

abbrev LockRef := ℕ

def edgeInboxCap : ℕ := 4

structure HostwardChannel where
  origin : OriginId
  depth : ℕ
deriving DecidableEq

structure AttachedSink where
  target : EndpointAddr
  tx : HostwardChannel
  counters : Option ℕ
deriving DecidableEq

structure TargetEdge where
  registered : Option (LockRef × OriginId) := none
  writer : Option ℕ := none
  attached : Bool := false
deriving DecidableEq

structure EdgeParts where
  target : EndpointAddr
  origin : OriginId
  lock : Option (LockRef × EndpointLock)
  hostTargetward : Option ℕ
  fanout : List AttachedSink
  inbox : Channel HostwardChannel
  slot : TargetEdge
  counters : Option ℕ

structure AttachOutcome where
  registered : Option (LockRef × OriginId)
  addressable : Bool
  granted : Bool
  consumerLive : Bool
  inboxFull : Bool

def attachEdge (parts : EdgeParts) (mode : WriteMode) (depth : ℕ) : AttachOutcome × EdgeParts :=
  let channel : HostwardChannel := ⟨parts.origin, depth⟩
  let sent := parts.inbox.trySend channel
  if sent.1 = .full then
    ({ registered := none, addressable := false, granted := false, consumerLive := false
       inboxFull := true }, parts)
  else
    let lock := parts.lock.map fun x =>
      (x.1, x.2.register parts.origin parts.target.display mode)
    let registered := lock.map fun x => (x.1, parts.origin)
    let writer := if mode ≠ .never then parts.hostTargetward else none
    ({ registered
       addressable := writer.isSome
       granted := lock.any fun x => x.2.holder = some parts.origin
       consumerLive := sent.1 = .ok
       inboxFull := false },
     { parts with
       lock
       inbox := sent.2
       slot := { registered, writer, attached := true }
       fanout := parts.fanout ++ [⟨parts.target, channel, parts.counters⟩] })

/-! ### Fabrics -/

structure Fabric (κ : Type) [Ord κ] where
  cells : LockRef → LockCell
  nextRef : ℕ
  endpointLocks : ExtTreeMap κ LockRef
  endpointTargetward : ExtTreeMap κ ℕ
  originLocks : ExtTreeMap κ (LockRef × OriginId)
  hostFanout : ExtTreeMap κ (List AttachedSink)
  targetInbox : ExtTreeMap κ (Channel HostwardChannel)
  targetCounters : ExtTreeMap κ ℕ
  targetEdges : ExtTreeMap κ TargetEdge

namespace Fabric

variable {κ : Type} [Ord κ]

def empty (cells : LockRef → LockCell) (nextRef : ℕ) : Fabric κ where
  cells
  nextRef
  endpointLocks := ∅
  endpointTargetward := ∅
  originLocks := ∅
  hostFanout := ∅
  targetInbox := ∅
  targetCounters := ∅
  targetEdges := ∅

variable [Std.TransOrd κ] (f : Fabric κ)

def withLock (ref : LockRef) (change : EndpointLock → EndpointLock) : Fabric κ :=
  { f with cells := update f.cells ref { f.cells ref with lock := change (f.cells ref).lock } }

def store (host target : κ) (parts : EdgeParts) : Fabric κ :=
  { f with
    cells := parts.lock.elim f.cells fun x =>
      update f.cells x.1 { f.cells x.1 with lock := x.2 }
    hostFanout := f.hostFanout.insert host parts.fanout
    targetInbox := f.targetInbox.insert target parts.inbox
    targetEdges := f.targetEdges.insert target parts.slot }

def attach (host target : κ) (addr : EndpointAddr) (origin : OriginId) (mode : WriteMode)
    (depth : ℕ) (fanout : List AttachedSink) (inbox : Channel HostwardChannel)
    (slot : TargetEdge) : AttachOutcome × Fabric κ :=
  let r := attachEdge
    { target := addr
      origin
      lock := f.endpointLocks[host]?.map fun ref => (ref, (f.cells ref).lock)
      hostTargetward := f.endpointTargetward[host]?
      fanout
      inbox
      slot
      counters := f.targetCounters[target]? } mode depth
  (r.1, f.store host target r.2)

def address (target : κ) (attached : AttachOutcome) : Fabric κ :=
  if attached.addressable then
    attached.registered.elim f fun r => { f with originLocks := f.originLocks.insert target r }
  else f

end Fabric

structure Wiring where
  fabric : Fabric EndpointAddr
  nextOrigin : ℕ

def hostwardDepth (c : GraphConfig) (hostNode : String) : ℕ :=
  (c.nodes.findSome? fun
    | .serial s => if s.name = hostNode then some s.hostwardBuffer else none
    | _ => none).getD channelCap

def facings (c : GraphConfig) : ExtTreeMap EndpointAddr (Facing × Arbitration) :=
  c.nodes.foldl (fun m n =>
    n.shape.endpoints.foldl (fun m ep => m.insert ⟨n.name, ep.name⟩ (ep.facing, ep.arbitration)) m) ∅

def Fabric.addEndpoint (f : Fabric EndpointAddr) (addr : EndpointAddr) (facing : Facing)
    (arbitration : Arbitration) : Fabric EndpointAddr :=
  match facing with
  | .host =>
    { f with
      cells := update f.cells f.nextRef ⟨.new arbitration, false⟩
      nextRef := f.nextRef + 1
      endpointLocks := f.endpointLocks.insert addr f.nextRef
      endpointTargetward := f.endpointTargetward.insert addr f.nextRef
      hostFanout := f.hostFanout.insert addr [] }
  | .target =>
    { f with
      nextRef := f.nextRef + 1
      targetInbox := f.targetInbox.insert addr (.new edgeInboxCap)
      targetCounters := f.targetCounters.insert addr f.nextRef
      targetEdges := f.targetEdges.insert addr {} }

namespace Wiring

def edgeEnds (facing : ExtTreeMap EndpointAddr (Facing × Arbitration)) (edge : EdgeConfig) :
    Option (EndpointAddr × EndpointAddr) :=
  match facing[edge.a]?.map Prod.fst, facing[edge.b]?.map Prod.fst with
  | some .host, some .target => some (edge.a, edge.b)
  | some .target, some .host => some (edge.b, edge.a)
  | _, _ => none

def attachAt (c : GraphConfig) (w : Wiring) (edge : EdgeConfig) :
    Option (EndpointAddr × AttachOutcome × Fabric EndpointAddr) :=
  match edgeEnds (facings c) edge with
  | none => none
  | some (host, target) =>
    match w.fabric.hostFanout[host]?, w.fabric.targetInbox[target]?,
        w.fabric.targetEdges[target]? with
    | some fanout, some inbox, some slot =>
      some (target, w.fabric.attach host target target w.nextOrigin (c.effectiveWriteMode edge)
        (hostwardDepth c host.node) fanout inbox slot)
    | _, _, _ => none

def wireEdge (c : GraphConfig) (w : Wiring) (edge : EdgeConfig) : Wiring :=
  match attachAt c w edge with
  | some (target, outcome, fabric) => ⟨fabric.address target outcome, w.nextOrigin + 1⟩
  | none => w

def endpoints (c : GraphConfig) (cells : LockRef → LockCell) (nextRef : ℕ) : Fabric EndpointAddr :=
  (facings c).toList.foldl (fun f x => f.addEndpoint x.1 x.2.1 x.2.2) (.empty cells nextRef)

def build (c : GraphConfig) (cells : LockRef → LockCell) (nextRef : ℕ) : Wiring :=
  c.edges.foldl (wireEdge c) ⟨endpoints c cells nextRef, 0⟩

end Wiring
end SerialNexus
