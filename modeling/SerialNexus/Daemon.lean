import SerialNexus.LockInvariant
import SerialNexus.Wiring

/-! # The daemon's graph verbs

`daemon/src/daemon.rs`: the graph state and the verbs that change it.  `load`, `add-node`,
`remove-node`, `connect`, `disconnect` and `teardown` each run in one critical section, so each is
one step; `lock`, `unlock` and `send` are modelled with the critical sections they consist of.

A node is its kind and its name; its tasks, its status and its tap hubs are left out, and so are
notifications and the snapshot file. -/

namespace SerialNexus

open Std (ExtTreeMap)

def sendOriginBase : ℕ := 2 ^ 40

inductive ErrorCode where
  | invalidParams
  | internalError
  | loadNonEmpty
  | structural
  | locked
  | hasEdges
  | deviceAbsent
  | edgeInboxFull
deriving DecidableEq

inductive Available where
  | codecs (names : List String)
  | flowControl (node device resolvedPath requested : String)
deriving DecidableEq

/-- A refusal. -/
structure RpcError where
  code : ErrorCode
  message : String
  errors : List String := []
  available : Option Available := none
  heldBy : Option String := none
deriving DecidableEq

def RpcError.invalidParams (message : String) : RpcError := { code := .invalidParams, message }

inductive Reply where
  | loaded (loaded tornDown discardedAtTeardown : ℕ)
  | added (node : String)
  | removed (node : String) (cascadedEdges releasedLocks purgedBytes discardedAtTeardown : ℕ)
  | connected (a b : String) (writeMode : WriteMode) (consumerLive : Bool)
  | disconnected (a b : String) (released : Option (Bool × ℕ))
  | tornDown (tornDown discardedAtTeardown : ℕ)
  | locked (origin : String) (acquired : Bool) (stoleFrom : Option String)
  | waiting
  | unlocked (origin : String) (released : Bool)
  | sending (origin : OriginId)
deriving DecidableEq

inductive ResolveError where
  | notPresent (input : String)
  | malformed (input reason : String)
deriving DecidableEq

inductive FlowOutcome where
  | honoured
  | refused
  | acceptedThenDropped
deriving DecidableEq

structure Registry where
  factories : List (String × (String → Except String Unit))

namespace Registry

variable (r : Registry)

def contains (name : String) : Bool := (r.factories.lookup name).isSome

def codecNames : List String := (r.factories.map Prod.fst).mergeSort

def usableCodecNames : List String :=
  (if "exec" ∈ r.codecNames then r.codecNames else r.codecNames ++ ["exec"]).mergeSort

def build (debug : String → String) (name attributes : String) : Except String Unit :=
  match r.factories.lookup name with
  | some factory => factory attributes
  | none =>
    .error ("unknown codec " ++ debug name ++ "; available: [" ++
      ", ".intercalate (r.codecNames.map debug) ++ "]")

end Registry

structure Daemon where
  loopbackIp : String → Option Bool
  debug : String → String
  parseAttributes : String → Except String Unit
  registry : Registry
  hasIdentitySource : Bool

structure Ambient where
  resolveInput : String → Except ResolveError String
  currentPath : String → Option String
  honoursFlowControl : String → FlowControl → Option FlowOutcome
  backlog : String → ℕ
  undelivered : String → ℕ

/-! ### Nodes -/

/-- A running node. -/
inductive Node where
  | serial (name : String)
  | pty (name : String)
  | log (name : String)
  | codec (name : String)
  | exec (name : String)
  | leg (name : String)
  | map (name : String)
deriving DecidableEq

namespace Node

def name : Node → String
  | serial n => n
  | pty n => n
  | log n => n
  | codec n => n
  | exec n => n
  | leg n => n
  | map n => n

def purgeOrigin (ambient : Ambient) : Node → ℕ
  | pty n => ambient.backlog n
  | _ => 0

def discardedAtTeardown (ambient : Ambient) : Node → ℕ
  | pty _ => 0
  | log _ => 0
  | node => ambient.undelivered node.name

end Node

def firstUnknownMapping (names : List String) : Option String :=
  names.find? fun name => (Mapping.fromName name).isNone

namespace Daemon

variable (d : Daemon)

def instantiate : NodeConfig → Except String Node
  | .serial c => .ok (.serial c.name)
  | .pty c => .ok (.pty c.name)
  | .log c => .ok (.log c.name)
  | .codec c =>
    if c.codec = "exec" then
      match d.parseAttributes c.attributes with
      | .error reason => .error reason
      | .ok _ => .ok (.exec c.name)
    else
      match d.registry.build d.debug c.codec c.attributes with
      | .error reason => .error reason
      | .ok _ => .ok (.codec c.name)
  | .leg c => .ok (.leg c.name)
  | .map c =>
    match firstUnknownMapping c.hostward, firstUnknownMapping c.targetward with
    | some bad, _ => .error ("unknown hostward mapping " ++ d.debug bad ++ " (§7.8)")
    | none, some bad => .error ("unknown targetward mapping " ++ d.debug bad ++ " (§7.8)")
    | none, none => .ok (.map c.name)

def instantiateAll : List NodeConfig → Except RpcError (List Node)
  | [] => .ok []
  | nc :: rest =>
    match d.instantiate nc with
    | .error reason => .error (.invalidParams ("node " ++ nc.name ++ ": " ++ reason))
    | .ok node =>
      match instantiateAll rest with
      | .error e => .error e
      | .ok nodes => .ok (node :: nodes)

def structuralError (message : String) (available : Option Available) : RpcError :=
  { code := .structural, message := "structural error: " ++ message, errors := [message], available }

def structuralErrors (errors : List ValidationError) : Option RpcError :=
  match errors.map (ValidationError.display d.debug) with
  | [] => none
  | first :: rest =>
    some { code := .structural, message := "structural error: " ++ first, errors := first :: rest }

def precheckCodec : NodeConfig → Except RpcError Unit
  | .codec c =>
    if c.codec = "exec" then
      match d.parseAttributes c.attributes with
      | .error reason =>
        .error (structuralError ("node " ++ d.debug c.name ++ ": " ++ reason) none)
      | .ok _ => .ok ()
    else if d.registry.contains c.codec = false then
      let available := d.registry.usableCodecNames
      .error (structuralError ("node " ++ d.debug c.name ++ ": unknown codec " ++
        d.debug c.codec ++ "; available: [" ++ ", ".intercalate (available.map d.debug) ++ "]")
        (some (.codecs available)))
    else
      match d.registry.build d.debug c.codec c.attributes with
      | .error reason =>
        .error (structuralError ("node " ++ d.debug c.name ++ ": " ++ reason) none)
      | .ok _ => .ok ()
  | _ => .ok ()

def precheckCodecs (nodes : List NodeConfig) : Except RpcError Unit := nodes.forM d.precheckCodec

def configSpelling : FlowControl → String
  | .none => "none"
  | .xonXoff => "xon-xoff"
  | .rtsCts => "rts-cts"

def precheckFlow (ambient : Ambient) : NodeConfig → Except RpcError Unit
  | .serial c =>
    if c.flowControl = .none then .ok ()
    else
      match ambient.currentPath c.device with
      | none => .ok ()
      | some path =>
        if ambient.honoursFlowControl path c.flowControl = some .acceptedThenDropped then
          let asked := configSpelling c.flowControl
          let flags := if c.flowControl = .rtsCts then "the flag" else "the flags"
          .error (structuralError ("node " ++ d.debug c.name ++ ": device " ++ c.device ++
            " (currently " ++ path ++ ") does not honour " ++ asked ++ " flow control — its " ++
            "driver accepts the request and reads " ++ flags ++ " back clear, so the link " ++
            "would run without the flow control this config asks for. Refused here rather " ++
            "than faulting the node at open. Use flow_control = \"none\" for this port, or " ++
            "attach an adapter whose driver implements " ++ asked ++
            "; `serial-nexus-doctor --port " ++ path ++ "` reports the same reading as P15.")
            (some (.flowControl c.name c.device path asked)))
        else .ok ()
  | _ => .ok ()

def precheckFlowControl (ambient : Ambient) (nodes : List NodeConfig) : Except RpcError Unit :=
  nodes.forM (d.precheckFlow ambient)

def captureIdentity (ambient : Ambient) : NodeConfig → Except RpcError NodeConfig
  | .serial c =>
    match ambient.resolveInput c.device with
    | .ok identity => .ok (.serial { c with device := identity })
    | .error (.notPresent input) =>
      .error
        { code := .deviceAbsent
          message := "device " ++ d.debug input ++ " is not present; " ++
            (if d.hasIdentitySource then
              "add by a usb:/by-path: identity to configure it while absent (§12)"
            else
              "this system has no /dev/serial/by-id tree and no <sys>/class/tty, so a " ++
              "usb:/by-path: identity resolves to nothing here and such a node would wait " ++
              "forever rather than bind (§12/§13; the IOKit backend that would supply " ++
              "identities off Linux is deferred, §14) — name the device by its raw /dev path " ++
              "instead, accepting the documented instability of that form") ++
            ". `serial-nexus-ctl ports` lists the serial devices this machine has and the " ++
            "identity each one would bind." }
    | .error (.malformed input reason) =>
      .error (.invalidParams ("device " ++ d.debug input ++ ": " ++ reason))
  | node => .ok node

end Daemon

structure GraphState where
  config : GraphConfig
  nodes : List Node
  fabric : Fabric String
  nextEdgeOrigin : ℕ
  nextSendOrigin : ℕ
  sends : List (LockRef × OriginId)

namespace GraphState

def initial : GraphState where
  config := {}
  nodes := []
  fabric := .empty (fun _ => ⟨.new .exclusive, false⟩) 0
  nextEdgeOrigin := 0
  nextSendOrigin := sendOriginBase
  sends := []

end GraphState

namespace Fabric

def rekey {β : Type} (m : ExtTreeMap String β) (w : ExtTreeMap EndpointAddr β) :
    ExtTreeMap String β :=
  w.toList.foldl (fun m x => m.insert x.1.display x.2) m

def absorb (f : Fabric String) (w : Fabric EndpointAddr) : Fabric String where
  cells := w.cells
  nextRef := w.nextRef
  endpointLocks := rekey f.endpointLocks w.endpointLocks
  endpointTargetward := rekey f.endpointTargetward w.endpointTargetward
  originLocks := rekey f.originLocks w.originLocks
  hostFanout := rekey f.hostFanout w.hostFanout
  targetInbox := rekey f.targetInbox w.targetInbox
  targetCounters := rekey f.targetCounters w.targetCounters
  targetEdges := rekey f.targetEdges w.targetEdges

variable (f : Fabric String)

def closeLock (ref : LockRef) : Fabric String :=
  { f with cells := Function.update f.cells ref { f.cells ref with closed := true } }

def detach (host target : String) : Fabric String :=
  let unbound :=
    { f with
      hostFanout := f.hostFanout.modify host
        (·.filter fun sink => sink.target ≠ EndpointAddr.parse target)
      originLocks := f.originLocks.erase target
      targetEdges := f.targetEdges.modify target fun e =>
        { e with registered := none, writer := none, attached := false } }
  match f.targetEdges[target]?.bind TargetEdge.registered with
  | some (ref, id) => unbound.withLock ref fun l => (l.unregister id).2
  | none => unbound

def holdsLock (target : String) : Bool :=
  (f.targetEdges[target]?.bind TargetEdge.registered).any fun x =>
    (f.cells x.1).lock.holder = some x.2

def forget (endpoints : List String) : Fabric String :=
  endpoints.foldl (fun f ep =>
    { f with
      hostFanout := f.hostFanout.erase ep
      targetInbox := f.targetInbox.erase ep
      targetCounters := f.targetCounters.erase ep
      targetEdges := f.targetEdges.erase ep }) f

def dropEndpoint (x : List LockRef × Fabric String) (ep : String) : List LockRef × Fabric String :=
  let removed := x.2.endpointLocks[ep]?.toList
  let f := removed.foldl (fun f ref => f.closeLock ref) x.2
  let f :=
    { f with
      endpointLocks := f.endpointLocks.erase ep
      endpointTargetward := f.endpointTargetward.erase ep }
  match f.originLocks[ep]? with
  | some (ref, id) =>
    (x.1 ++ removed,
      { f with originLocks := f.originLocks.erase ep }.withLock ref fun l => (l.unregister id).2)
  | none => (x.1 ++ removed, f)

def dropEndpoints (endpoints : List String) : Fabric String :=
  let x := endpoints.foldl dropEndpoint ([], f)
  { x.2 with originLocks := x.2.originLocks.filter fun _ r => decide (r.1 ∉ x.1) }.forget endpoints

end Fabric

namespace GraphState

variable (d : Daemon) (ambient : Ambient) (s : GraphState)

def nodeNamed (name : String) : Option Node := s.nodes.find? (·.name = name)

def purgeOf (name : String) : ℕ := (s.nodeNamed name).elim 0 (Node.purgeOrigin ambient)

def detachPurge (target : String) : ℕ := s.purgeOf ambient (EndpointAddr.parse target).node

def absorbWiring (w : Wiring) : GraphState :=
  { s with
    fabric := s.fabric.absorb w.fabric
    nextEdgeOrigin := max s.nextEdgeOrigin w.nextOrigin }

def discarded : ℕ := s.nodes.foldl (fun n node => saturatingAdd n (node.discardedAtTeardown ambient)) 0

def teardown : GraphState :=
  let locks := s.fabric.endpointLocks.toList.map Prod.snd
  { s with
    config := {}
    nodes := []
    fabric := .empty (locks.foldl (fun f ref => f.closeLock ref) s.fabric).cells s.fabric.nextRef }

def create (config : GraphConfig) (tornDown discardedAtTeardown : ℕ) :
    Except RpcError Reply × GraphState :=
  if s.nodes ≠ [] then
    (.error
      { code := .loadNonEmpty
        message := "load requires an empty graph — teardown first (or use load --replace)" }, s)
  else
    match d.instantiateAll config.nodes with
    | .error e => (.error e, s)
    | .ok nodes =>
      let cleared := { s with fabric := .empty s.fabric.cells s.fabric.nextRef }
      let w := Wiring.build config s.fabric.cells s.fabric.nextRef
      (.ok (.loaded nodes.length tornDown discardedAtTeardown),
        { cleared.absorbWiring w with nodes, config })

def load (config : GraphConfig) (replace : Bool) : Except RpcError Reply × GraphState :=
  match d.structuralErrors (config.validate d.loopbackIp) with
  | some e => (.error e, s)
  | none =>
    match d.precheckCodecs config.nodes with
    | .error e => (.error e, s)
    | .ok _ =>
      match d.precheckFlowControl ambient config.nodes with
      | .error e => (.error e, s)
      | .ok _ =>
        if replace then s.teardown.create d config s.nodes.length (s.discarded ambient)
        else s.create d config 0 0

def insertNode (node : NodeConfig) : Except RpcError Reply × GraphState :=
  let candidate := { s.config with nodes := s.config.nodes ++ [node] }
  match d.structuralErrors (candidate.validate d.loopbackIp) with
  | some e => (.error e, s)
  | none =>
    match d.instantiate node with
    | .error reason => (.error (.invalidParams ("node " ++ node.name ++ ": " ++ reason)), s)
    | .ok instance_ =>
      let w := Wiring.build { nodes := [node], edges := [] } s.fabric.cells s.fabric.nextRef
      (.ok (.added node.name),
        { s.absorbWiring w with nodes := s.nodes ++ [instance_], config := candidate })

def addNode (node : NodeConfig) : Except RpcError Reply × GraphState :=
  match d.captureIdentity ambient node with
  | .error e => (.error e, s)
  | .ok node =>
    match d.precheckCodecs [node] with
    | .error e => (.error e, s)
    | .ok _ =>
      match d.precheckFlowControl ambient [node] with
      | .error e => (.error e, s)
      | .ok _ => s.insertNode d node

def touches (name : String) (e : EdgeConfig) : Bool := e.a.node = name || e.b.node = name

def cascadeStep (x : Fabric String × ℕ × ℕ) (ends : EndpointAddr × EndpointAddr) :
    Fabric String × ℕ × ℕ :=
  (x.1.detach ends.1.display ends.2.display,
    x.2.1 + (if x.1.holdsLock ends.2.display then 1 else 0),
    saturatingAdd x.2.2 (s.detachPurge ambient ends.2.display))

def removeNode (name : String) (cascade : Bool) : Except RpcError Reply × GraphState :=
  match s.nodes.findIdx? (·.name = name) with
  | none => (.error (.invalidParams ("unknown node " ++ d.debug name)), s)
  | some idx =>
    let attached := (s.config.edges.filter (touches name)).length
    if attached > 0 ∧ cascade = false then
      (.error
        { code := .hasEdges
          message := "node " ++ d.debug name ++ " has " ++ toString attached ++
            " attached edge(s); use --cascade" }, s)
    else
      let endpoints := (s.config.nodeNamed name).elim [] fun n =>
        n.shape.endpoints.map fun ep => (EndpointAddr.mk name ep.name).display
      let cascaded := (s.config.edges.filter (touches name)).filterMap s.config.edgeEnds
      let x := cascaded.foldl (s.cascadeStep ambient) (s.fabric, 0, 0)
      (.ok (.removed name attached x.2.1 x.2.2
          ((s.nodes[idx]?).elim 0 (Node.discardedAtTeardown ambient))),
        { s with
          fabric := x.1.dropEndpoints endpoints
          nodes := s.nodes.eraseIdx idx
          config :=
            { nodes := s.config.nodes.filter (·.name ≠ name)
              edges := s.config.edges.filter fun e => e.a.node ≠ name ∧ e.b.node ≠ name } })

def finishConnect (edge : EdgeConfig) (host target : EndpointAddr) (mode : WriteMode)
    (attached : AttachOutcome) : Except RpcError Reply × GraphState :=
  let addressed := s.fabric.address target.display attached
  let purged := s.purgeOf ambient target.node
  let fabric :=
    match attached.registered with
    | some (ref, id) =>
      if attached.granted ∧ purged > 0 then addressed.withLock ref (·.recordPurge id purged)
      else addressed
    | none => s.fabric
  (.ok (.connected host.display target.display mode attached.consumerLive),
    { s with fabric, config := { s.config with edges := s.config.edges ++ [edge] } })

def attachConnect (edge : EdgeConfig) (host target : EndpointAddr) (mode : WriteMode)
    (depth : ℕ) (fanout : List AttachedSink) (inbox : Channel HostwardChannel)
    (slot : TargetEdge) : Except RpcError Reply × GraphState :=
  let r := s.fabric.attach host.display target.display target s.nextEdgeOrigin mode depth fanout
    inbox slot
  let s' := { s with fabric := r.2, nextEdgeOrigin := s.nextEdgeOrigin + 1 }
  if r.1.inboxFull then
    (.error
      { code := .edgeInboxFull
        message := "endpoint " ++ d.debug target.display ++
          " has not drained the edges attached before this one yet; retry" }, s')
  else s'.finishConnect ambient edge host target mode r.1

def connect (edge : EdgeConfig) : Except RpcError Reply × GraphState :=
  let candidate := { s.config with edges := s.config.edges ++ [edge] }
  match d.structuralErrors (candidate.validate d.loopbackIp) with
  | some e => (.error e, s)
  | none =>
    match candidate.edgeEnds edge with
    | none =>
      (.error (.invalidParams
        "edge must join one host-facing endpoint to one target-facing endpoint"), s)
    | some (host, target) =>
      match s.fabric.hostFanout[host.display]? with
      | none =>
        (.error (.invalidParams
          ("host-facing endpoint " ++ d.debug host.display ++ " is not wired")), s)
      | some fanout =>
        match s.fabric.targetInbox[target.display]? with
        | none =>
          (.error (.invalidParams
            ("target-facing endpoint " ++ d.debug target.display ++ " is not wired")), s)
        | some inbox =>
          match s.fabric.targetEdges[target.display]? with
          | none =>
            (.error (.invalidParams
              ("target-facing endpoint " ++ d.debug target.display ++ " has no edge slot")), s)
          | some slot =>
            s.attachConnect d ambient edge host target
              (candidate.effectiveWriteMode edge) (hostwardDepth candidate host.node)
              fanout inbox slot

def sameEdge (x y : EdgeConfig) : Bool := (x.a = y.a && x.b = y.b) || (x.a = y.b && x.b = y.a)

def disconnect (edge : EdgeConfig) : Except RpcError Reply × GraphState :=
  match s.config.edges.findIdx? (sameEdge · edge) with
  | none =>
    (.error (.invalidParams
      ("no edge between " ++ edge.a.display ++ " and " ++ edge.b.display)), s)
  | some index =>
    let config := { s.config with edges := s.config.edges.eraseIdx index }
    match (s.config.edges[index]?).bind s.config.edgeEnds with
    | none => (.ok (.disconnected edge.a.display edge.b.display none), { s with config })
    | some (host, target) =>
      (.ok (.disconnected host.display target.display
          (some (s.fabric.holdsLock target.display, s.detachPurge ambient target.display))),
        { s with fabric := s.fabric.detach host.display target.display, config })

/-! ### Lock verbs -/

def resolveOrigin (origin : String) : Option (LockRef × OriginId) := s.fabric.originLocks[origin]?

def withLock (ref : LockRef) (change : EndpointLock → EndpointLock) : GraphState :=
  { s with fabric := s.fabric.withLock ref change }

def purgeOnAcquire (ref : LockRef) (origin : String) (id : OriginId) : GraphState :=
  let purged := s.purgeOf ambient origin
  if (s.fabric.cells ref).lock.arbitration = .exclusive ∧ purged > 0 then
    s.withLock ref (·.recordPurge id purged)
  else s

def renewLease (ref : LockRef) (id : OriginId) (leaseMs : Option ℕ) : GraphState :=
  if leaseMs.isSome then s.withLock ref fun l => (l.renew id).2 else s

def neverWrites (origin : String) : RpcError :=
  .invalidParams ("origin " ++ d.debug origin ++ " is write=never and cannot hold the lock")

def lock (origin : String) (steal wait : Bool) (leaseMs : Option ℕ) :
    Except RpcError Reply × GraphState :=
  match s.resolveOrigin origin with
  | none =>
    (.error (.invalidParams (d.debug origin ++ " is not a writable origin on any endpoint")), s)
  | some (ref, id) =>
    let l := (s.fabric.cells ref).lock
    if steal then
      let s' := s.withLock ref fun l => (l.steal id).2
      match (l.steal id).1 with
      | .readOnly => (.error (neverWrites d origin), s')
      | .alreadyHeld => (.ok (.locked origin false none), s'.renewLease ref id leaseMs)
      | .stolen previous =>
        (.ok (.locked origin true (previous.bind l.label)), s'.purgeOnAcquire ambient ref origin id)
    else
      let s' := s.withLock ref fun l => (l.acquire id).2
      match (l.acquire id).1 with
      | .granted => (.ok (.locked origin true none), s'.purgeOnAcquire ambient ref origin id)
      | .alreadyHeld => (.ok (.locked origin false none), s'.renewLease ref id leaseMs)
      | .readOnly => (.error (neverWrites d origin), s')
      | .unregistered =>
        (.error (.invalidParams
          ("origin " ++ d.debug origin ++ " was detached from its endpoint while waiting")), s')
      | .denied heldBy =>
        if wait then (.ok .waiting, s'.withLock ref fun l => l.enqueue id)
        else
          (.error
            { code := .locked
              message := "endpoint is locked by " ++ (l.label heldBy).getD "another origin"
              heldBy := l.label heldBy }, s')

def unlock (origin : String) : Except RpcError Reply × GraphState :=
  match s.resolveOrigin origin with
  | none =>
    (.error (.invalidParams (d.debug origin ++ " is not a writable origin on any endpoint")), s)
  | some (ref, id) =>
    (.ok (.unlocked origin ((s.fabric.cells ref).lock.release id).1),
      s.withLock ref fun l => (l.release id).2)

def send (endpoint : String) (senderClosed : Bool) : Except RpcError Reply × GraphState :=
  match s.fabric.endpointLocks[endpoint]? with
  | none =>
    (.error (.invalidParams
      (d.debug endpoint ++ " is not a host-facing endpoint with a write lock")), s)
  | some ref =>
    if s.fabric.endpointTargetward[endpoint]? = none then
      (.error { code := .internalError, message := "endpoint has no targetward path" }, s)
    else if senderClosed then
      (.error (.invalidParams
        ("endpoint " ++ d.debug endpoint ++ " cannot accept targetward writes (its interior " ++
          "node has no writable path to the device)")), s)
    else
      let id := s.nextSendOrigin
      (.ok (.sending id),
        { s.withLock ref (·.register id "send" .onDemand) with
          nextSendOrigin := wrappingAdd id 1
          sends := s.sends ++ [(ref, id)] })

def endSend (i : ℕ) : GraphState :=
  match s.sends[i]? with
  | none => s
  | some (ref, id) =>
    { s.withLock ref fun l => (l.unregister id).2 with sends := s.sends.eraseIdx i }

end GraphState

inductive LockUse where
  | acquire (id : OriginId)
  | enqueue (id : OriginId)
  | dequeue (id : OriginId)
  | steal (id : OriginId)
  | reclaimHeld (id : OriginId)
  | release (id : OriginId)
  | renew (id : OriginId)
  | recordPurge (id : OriginId) (bytes : ℕ)

def LockUse.op : LockUse → EndpointLock.Op
  | .acquire id => .acquire id
  | .enqueue id => .enqueue id
  | .dequeue id => .dequeue id
  | .steal id => .steal id
  | .reclaimHeld id => .reclaimHeld id
  | .release id => .release id
  | .renew id => .renew id
  | .recordPurge id bytes => .recordPurge id bytes

inductive GraphCall where
  | load (params : Except RpcError (GraphConfig × Bool))
  | addNode (params : Except RpcError NodeConfig)
  | removeNode (params : Except RpcError (String × Bool))
  | connect (params : Except RpcError EdgeConfig)
  | disconnect (params : Except RpcError EdgeConfig)

def GraphState.call (d : Daemon) (ambient : Ambient) (s : GraphState) :
    GraphCall → Except RpcError Reply × GraphState
  | .load (.error e) => (.error e, s)
  | .load (.ok (config, replace)) => s.load d ambient config replace
  | .addNode (.error e) => (.error e, s)
  | .addNode (.ok node) => s.addNode d ambient node
  | .removeNode (.error e) => (.error e, s)
  | .removeNode (.ok (name, cascade)) => s.removeNode d ambient name cascade
  | .connect (.error e) => (.error e, s)
  | .connect (.ok edge) => s.connect d ambient edge
  | .disconnect (.error e) => (.error e, s)
  | .disconnect (.ok edge) => s.disconnect ambient edge

inductive DaemonStep where
  | call (ambient : Ambient) (call : GraphCall)
  | teardown
  | lock (ambient : Ambient) (origin : String) (steal wait : Bool) (leaseMs : Option ℕ)
  | unlock (origin : String)
  | send (endpoint : String) (senderClosed : Bool)
  | endSend (i : ℕ)
  | useLock (ref : LockRef) (use : LockUse)
  | drain (target : String)
  | hangUp (target : String)

namespace GraphState

def withInbox (s : GraphState) (target : String)
    (change : Channel HostwardChannel → Channel HostwardChannel) : GraphState :=
  { s with fabric := { s.fabric with targetInbox := s.fabric.targetInbox.modify target change } }

def step (d : Daemon) (s : GraphState) : DaemonStep → GraphState
  | .call ambient call => (s.call d ambient call).2
  | .teardown => s.teardown
  | .lock ambient origin steal wait leaseMs => (s.lock d ambient origin steal wait leaseMs).2
  | .unlock origin => (s.unlock d origin).2
  | .send endpoint senderClosed => (s.send d endpoint senderClosed).2
  | .endSend i => s.endSend i
  | .useLock ref use => s.withLock ref (·.apply use.op)
  | .drain target => s.withInbox target fun c => c.recv.2
  | .hangUp target => s.withInbox target Channel.hangUp

def machine (d : Daemon) : Runs.Machine GraphState DaemonStep where
  step := step d
  ok _ _ := True

end GraphState
end SerialNexus
