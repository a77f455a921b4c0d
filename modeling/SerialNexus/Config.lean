import SerialNexus.GraphModel

/-! # Configurations

`core/src/config.rs`: the node kinds with the fields the graph machinery reads, the shape of each,
the effective write mode of an edge, and `GraphConfig::validate`.  The standard library's
`parse::<IpAddr>` with `is_loopback` is the parameter `loopbackIp`. -/

namespace SerialNexus

open Std (ExtTreeMap)

def mapRawEndpoint : String := "raw"

def maxReplayRing : ℕ := 16 * 1024 * 1024

def maxHostwardBuffer : ℕ := 65536

def maxTimerMs : ℕ := 3600000

def maxRotationPadding : ℕ := 20

def defaultReplayRing : ℕ := 65536

/-! ### Node kinds -/

inductive FlowControl where
  | none
  | xonXoff
  | rtsCts
deriving DecidableEq

inductive Transport where
  | tcp
  | unix
deriving DecidableEq

/-- A serial port. -/
structure SerialConfig where
  name : String
  device : String
  baud : ℕ := 115200
  flowControl : FlowControl := .none
  faces : Facing := .host
  arbitration : Arbitration := .exclusive
  hostwardBuffer : ℕ := 256
  replayRing : ℕ := defaultReplayRing
deriving DecidableEq

/-- A pseudo-terminal. -/
structure PtyConfig where
  name : String
  mode : Option ℕ := none
  advertisedBaud : ℕ := 115200
  hostwardBuffer : ℕ := 32
deriving DecidableEq

/-- A log file. -/
structure LogFileConfig where
  name : String
  rotationPadding : ℕ := 3
deriving DecidableEq

structure CodecConfig where
  name : String
  codec : String
  faces : Facing := .target
  channels : List String
  arbitration : Arbitration := .exclusive
  replayRing : ℕ := defaultReplayRing
  attributes : String := ""
deriving DecidableEq

structure LegConfig where
  name : String
  faces : Facing
  transport : Transport := .tcp
  address : String
  insecureBind : Bool := false
  reconnectInitialMs : ℕ := 200
  reconnectMaxMs : ℕ := 5000
  idleReleaseMs : ℕ := 1000
  arbitration : Arbitration := .exclusive
  replayRing : ℕ := defaultReplayRing
  channels : List String
deriving DecidableEq

/-- A byte mapping. -/
structure MapConfig where
  name : String
  hostward : List String := []
  targetward : List String := []
  arbitration : Arbitration := .exclusive
  replayRing : ℕ := defaultReplayRing
deriving DecidableEq

/-- A configured node. -/
inductive NodeConfig where
  | serial (c : SerialConfig)
  | pty (c : PtyConfig)
  | log (c : LogFileConfig)
  | codec (c : CodecConfig)
  | leg (c : LegConfig)
  | map (c : MapConfig)
deriving DecidableEq

/-- A configured edge. -/
structure EdgeConfig where
  a : EndpointAddr
  b : EndpointAddr
  writeMode : WriteMode := .onDemand
deriving DecidableEq

/-- A configuration. -/
structure GraphConfig where
  nodes : List NodeConfig := []
  edges : List EdgeConfig := []
deriving DecidableEq

/-! ### Mappings -/

inductive Mapping where
  | crlf | crcrlf | igncr | lfcr | lfcrlf | ignlf | bsdel | delbs
  | spchex | tabhex | crhex | lfhex | eightBitHex | nrmHex
deriving DecidableEq

def vocabulary : List (String × Mapping) :=
  [("crlf", .crlf), ("crcrlf", .crcrlf), ("igncr", .igncr), ("lfcr", .lfcr), ("lfcrlf", .lfcrlf),
   ("ignlf", .ignlf), ("bsdel", .bsdel), ("delbs", .delbs), ("spchex", .spchex),
   ("tabhex", .tabhex), ("crhex", .crhex), ("lfhex", .lfhex), ("8bithex", .eightBitHex),
   ("nrmhex", .nrmHex)]

def Mapping.fromName (name : String) : Option Mapping :=
  (vocabulary.find? (·.1 = name)).map Prod.snd

namespace NodeConfig

def name : NodeConfig → String
  | serial c => c.name
  | pty c => c.name
  | log c => c.name
  | codec c => c.name
  | leg c => c.name
  | map c => c.name

def replayRing : NodeConfig → Option ℕ
  | serial c => some c.replayRing
  | codec c => some c.replayRing
  | leg c => some c.replayRing
  | map c => some c.replayRing
  | pty _ => none
  | log _ => none

def arbitration : NodeConfig → Arbitration
  | serial c => c.arbitration
  | codec c => c.arbitration
  | leg c => c.arbitration
  | map c => c.arbitration
  | pty _ => default
  | log _ => default

def endpointArbitration (arbitration : Arbitration) (facing : Facing) : Arbitration :=
  if facing = .host then arbitration else default

def shape : NodeConfig → NodeShape
  | serial c => .singleArb c.faces c.arbitration
  | pty _ => .single .target
  | log _ => .single .target
  | codec c =>
    ⟨⟨defaultEndpoint, c.faces, endpointArbitration c.arbitration c.faces⟩ ::
      c.channels.map fun ch =>
        ⟨ch, c.faces.opposite, endpointArbitration c.arbitration c.faces.opposite⟩⟩
  | leg c => ⟨c.channels.map fun ch => ⟨ch, c.faces, endpointArbitration c.arbitration c.faces⟩⟩
  | map c => ⟨[⟨defaultEndpoint, .host, c.arbitration⟩, ⟨mapRawEndpoint, .target, default⟩]⟩

def isCodec : NodeConfig → Bool
  | codec _ => true
  | _ => false

def isLog : NodeConfig → Bool
  | log _ => true
  | _ => false

def isMap : NodeConfig → Bool
  | map _ => true
  | _ => false

end NodeConfig

def rangeError (node field : String) (value min max : ℕ) : List ValidationError :=
  if value < min ∨ value > max then [.numericOutOfRange node field value min max] else []

def hostwardBufferErrors (node : String) (hostwardBuffer : ℕ) : List ValidationError :=
  if hostwardBuffer = 0 then [.zeroHostwardBuffer node]
  else rangeError node "hostward_buffer" hostwardBuffer 1 maxHostwardBuffer

def eqIgnoreAsciiCase (s t : String) : Bool := s.toList.map Char.toLower = t.toList.map Char.toLower

section validation

variable (loopbackIp : String → Option Bool)

def isLoopbackAddr (address : String) : Bool :=
  let named (host : String) : Bool :=
    match loopbackIp host with
    | some loopback => loopback
    | none => eqIgnoreAsciiCase host "localhost"
  match address.toList with
  | '[' :: rest =>
    match splitOnce ']' (.ofList rest) with
    | some (inner, _) => named inner
    | none => named (.ofList rest)
  | _ =>
    match loopbackIp address with
    | some loopback => loopback
    | none => named (((rsplitOnce ':' address).map Prod.fst).getD address)

def NodeConfig.errors : NodeConfig → List ValidationError
  | .serial c =>
    rangeError c.name "replay_ring" c.replayRing 0 maxReplayRing ++
    hostwardBufferErrors c.name c.hostwardBuffer ++
    (if c.faces = .target then [.serialFacesTarget c.name] else []) ++
    rangeError c.name "baud" c.baud 1 (2 ^ 32 - 1)
  | .pty c =>
    hostwardBufferErrors c.name c.hostwardBuffer ++
    (c.mode.elim [] fun mode => rangeError c.name "mode" mode 0o600 0o777) ++
    rangeError c.name "advertised_baud" c.advertisedBaud 1 (2 ^ 32 - 1)
  | .log c => rangeError c.name "rotation_padding" c.rotationPadding 0 maxRotationPadding
  | .codec c => rangeError c.name "replay_ring" c.replayRing 0 maxReplayRing
  | .leg c =>
    rangeError c.name "replay_ring" c.replayRing 0 maxReplayRing ++
    rangeError c.name "reconnect_initial_ms" c.reconnectInitialMs 0 maxTimerMs ++
    rangeError c.name "reconnect_max_ms" c.reconnectMaxMs 0 maxTimerMs ++
    rangeError c.name "idle_release_ms" c.idleReleaseMs 0 maxTimerMs ++
    (if c.transport = .tcp ∧ ¬ c.insecureBind ∧ ¬ isLoopbackAddr loopbackIp c.address then
      [.nonLoopbackBind c.name c.address] else []) ++
    (if "" ∈ c.channels then [.duplicateEndpoint c.name ""] else []) ++
    (if c.channels = [] then [.emptyLeg c.name] else [])
  | .map c =>
    rangeError c.name "replay_ring" c.replayRing 0 maxReplayRing ++
    ((c.hostward ++ c.targetward).filter fun mapping => Mapping.fromName mapping = none).map
      fun mapping => .unknownMapping c.name mapping

def nodesErrors : List String → List NodeConfig → List ValidationError
  | _, [] => []
  | seen, node :: nodes =>
    (if node.name ∈ seen then [.duplicateNodeName node.name] else []) ++
    node.errors loopbackIp ++ nodesErrors (node.name :: seen) nodes

end validation

namespace GraphConfig

variable (c : GraphConfig)

def toModel : GraphModel where
  shapes := c.nodes.foldl (fun shapes node => shapes.insert node.name node.shape) ∅
  edges := c.edges.map fun e => ⟨e.a, e.b, e.writeMode⟩

def nodeNamed (name : String) : Option NodeConfig := c.nodes.find? (·.name = name)

def endpointFacing (addr : EndpointAddr) : Option Facing := do
  let node ← c.nodeNamed addr.node
  let ep ← node.shape.endpoint addr.endpoint
  return ep.facing

def edgeEnds (edge : EdgeConfig) : Option (EndpointAddr × EndpointAddr) :=
  match c.endpointFacing edge.a, c.endpointFacing edge.b with
  | some .host, some .target => some (edge.a, edge.b)
  | some .target, some .host => some (edge.b, edge.a)
  | _, _ => none

def isMultiplexedEndpoint (addr : EndpointAddr) : Bool :=
  addr.isDefault && (c.nodeNamed addr.node).any NodeConfig.isCodec

def endpointArbitrates (addr : EndpointAddr) : Bool :=
  (c.nodeNamed addr.node).map NodeConfig.arbitration ≠ some .freeForAll

def effectiveWriteMode (edge : EdgeConfig) : WriteMode :=
  match c.edgeEnds edge with
  | none => edge.writeMode
  | some (_, target) =>
    if (c.nodeNamed target.node).any NodeConfig.isLog then .never
    else if edge.writeMode = .onDemand ∧ target.endpoint = mapRawEndpoint ∧
        (c.nodeNamed target.node).any NodeConfig.isMap then .held
    else edge.writeMode

def holdsHost (edge : EdgeConfig) (host : EndpointAddr) : Bool :=
  c.effectiveWriteMode edge = .held && c.endpointArbitrates host

def edgesErrors : ℕ → List (EndpointAddr × EndpointAddr) → List EdgeConfig → List ValidationError
  | _, _, [] => []
  | i, held, edge :: edges =>
    match c.edgeEnds edge with
    | none => edgesErrors (i + 1) held edges
    | some (host, target) =>
      (if c.isMultiplexedEndpoint target ∧ c.endpointArbitrates host ∧
          edge.writeMode ≠ .held ∧ edge.writeMode ≠ .never then
        [.multiplexedEdgeNotHeld i host target edge.writeMode] else []) ++
      if c.holdsHost edge host then
        match held.lookup host with
        | some first =>
          .conflictingHeldEdges host first target :: edgesErrors (i + 1) held edges
        | none => edgesErrors (i + 1) ((host, target) :: held) edges
      else edgesErrors (i + 1) held edges

def validate (loopbackIp : String → Option Bool) : List ValidationError :=
  nodesErrors loopbackIp [] c.nodes ++ c.edgesErrors 0 [] c.edges ++ c.toModel.validate

end GraphConfig
end SerialNexus
