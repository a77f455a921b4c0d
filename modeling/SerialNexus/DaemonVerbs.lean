import SerialNexus.ConfigValid
import SerialNexus.Daemon

/-! # What the graph verbs can do

`Called` is what a graph verb can do: a call is refused and leaves the state alone, or its checks
have passed and the state is the one given.  The exception is `connect`, which draws an origin id
before it finds the target's inbox full (`numbered`). -/

namespace SerialNexus

open List

variable (d : Daemon)

namespace Daemon

/-! ### The checks -/

theorem structuralErrors_eq_none_iff {errors : List ValidationError} :
    d.structuralErrors errors = none ↔ errors = [] := by
  cases errors with
  | nil | cons => simp [structuralErrors]

theorem structuralErrors_cases (c : GraphConfig) :
    (∃ e, d.structuralErrors (c.validate d.loopbackIp) = some e) ∨
      (d.structuralErrors (c.validate d.loopbackIp) = none ∧ c.Valid d.loopbackIp) := by
  cases h : d.structuralErrors (c.validate d.loopbackIp) with
  | some e => exact .inl ⟨e, rfl⟩
  | none =>
    exact .inr ⟨rfl, (c.validate_eq_nil_iff _).mp ((d.structuralErrors_eq_none_iff).mp h)⟩

theorem precheckCodecs_ok {nodes : List NodeConfig} (h : d.precheckCodecs nodes = .ok ()) :
    ∀ n ∈ nodes, d.precheckCodec n = .ok () := by
  induction nodes with
  | nil => simp
  | cons n nodes ih =>
    rw [precheckCodecs, forM_eq_forM, forM_cons] at h
    cases hn : d.precheckCodec n with
    | error e =>
      rw [hn] at h
      cases h
    | ok u =>
      rw [hn] at h
      rw [forall_mem_cons]
      exact ⟨hn, ih h⟩

variable {d}

variable {n : NodeConfig} {ns : List NodeConfig}

theorem instantiate_name {node : Node} (h : d.instantiate n = .ok node) : node.name = n.name := by
  cases n with
  | codec c =>
    rw [instantiate] at h
    split_ifs at h
    all_goals
      split at h
      · cases h
      · cases h
        rfl
  | map c =>
    rw [instantiate] at h
    split at h
    · cases h
    · cases h
    · cases h
      rfl
  | _ =>
    cases h
    rfl

theorem instantiateAll_names {nodes : List Node} (h : d.instantiateAll ns = .ok nodes) :
    nodes.map Node.name = ns.map NodeConfig.name := by
  induction ns generalizing nodes with
  | nil =>
    cases h
    rfl
  | cons n ns ih =>
    rw [instantiateAll] at h
    split at h
    · cases h
    · next node hnode =>
      split at h
      · cases h
      · next nodes' hnodes =>
        cases h
        rw [map_cons, map_cons, instantiate_name hnode, ih hnodes]

theorem firstUnknownMapping_eq_none {names : List String}
    (h : ∀ name ∈ names, Mapping.fromName name ≠ none) : firstUnknownMapping names = none := by
  refine find?_eq_none.mpr fun name hname => ?_
  rw [Option.isNone_iff_eq_none]
  exact h name hname

theorem instantiate_of_checked (hfields : n.errors d.loopbackIp = [])
    (hcodec : d.precheckCodec n = .ok ()) : ∃ node, d.instantiate n = .ok node := by
  cases n with
  | codec c =>
    rw [precheckCodec] at hcodec
    rw [instantiate]
    split_ifs at hcodec with hexec hknown
    · rw [if_pos hexec]
      split at hcodec
      · cases hcodec
      · exact ⟨.exec c.name, rfl⟩
    · rw [if_neg hexec]
      split at hcodec
      · cases hcodec
      · exact ⟨.codec c.name, rfl⟩
  | map c =>
    have hmaps : ∀ name ∈ c.hostward ++ c.targetward, Mapping.fromName name ≠ none := by
      have hnil := (append_eq_nil_iff.mp hfields).2
      rw [map_eq_nil_iff, filter_eq_nil_iff] at hnil
      exact fun name hname => by simpa using hnil name hname
    have hh := firstUnknownMapping_eq_none fun name hname =>
      hmaps name (mem_append_left _ hname)
    have ht := firstUnknownMapping_eq_none fun name hname =>
      hmaps name (mem_append_right _ hname)
    exact ⟨.map c.name, by rw [instantiate, hh, ht]⟩
  | _ => exact ⟨_, rfl⟩

theorem instantiateAll_of_checked (hfields : ∀ n ∈ ns, n.errors d.loopbackIp = [])
    (hcodec : d.precheckCodecs ns = .ok ()) : ∃ nodes, d.instantiateAll ns = .ok nodes := by
  have hcodecs := d.precheckCodecs_ok hcodec
  clear hcodec
  induction ns with
  | nil => exact ⟨[], rfl⟩
  | cons n ns ih =>
    rw [forall_mem_cons] at hfields hcodecs
    obtain ⟨node, hnode⟩ := instantiate_of_checked hfields.1 hcodecs.1
    obtain ⟨nodes, hnodes⟩ := ih hfields.2 hcodecs.2
    exact ⟨node :: nodes, by rw [instantiateAll, hnode, hnodes]⟩

end Daemon

/-! ### The verbs -/

theorem Fabric.attach_full {f : Fabric String} {host target : String} {addr : EndpointAddr}
    {origin : OriginId} {mode : WriteMode} {depth : ℕ} {fanout : List AttachedSink}
    {inbox : Channel HostwardChannel} {slot : TargetEdge}
    (hfanout : f.hostFanout[host]? = some fanout) (hinbox : f.targetInbox[target]? = some inbox)
    (hslot : f.targetEdges[target]? = some slot)
    (hfull : (f.attach host target addr origin mode depth fanout inbox slot).1.inboxFull = true) :
    (f.attach host target addr origin mode depth fanout inbox slot).2 = f := by
  have hsent : (inbox.trySend ⟨origin, depth⟩).1 = .full := by
    by_contra hroom
    simp [Fabric.attach, attachEdge, hroom] at hfull
  simp only [Fabric.attach, attachEdge, hsent, if_true, Fabric.store,
    Keyed.insert_getElem? hfanout, Keyed.insert_getElem? hinbox, Keyed.insert_getElem? hslot]
  cases f.endpointLocks[host]? with
  | none => rfl
  | some ref =>
    change { f with cells := Function.update f.cells ref (f.cells ref) } = f
    rw [Function.update_eq_self]

namespace GraphState

variable (ambient : Ambient) (s : GraphState)

def created (config : GraphConfig) (nodes : List Node) : GraphState :=
  { ({ s with fabric := .empty s.fabric.cells s.fabric.nextRef }).absorbWiring
      (Wiring.build config s.fabric.cells s.fabric.nextRef) with nodes, config }

def withNode (config : NodeConfig) (node : Node) : GraphState :=
  { s.absorbWiring (Wiring.build { nodes := [config], edges := [] } s.fabric.cells s.fabric.nextRef)
    with
    nodes := s.nodes ++ [node]
    config := { s.config with nodes := s.config.nodes ++ [config] } }

def cascaded (name : String) : List (EndpointAddr × EndpointAddr) :=
  (s.config.edges.filter (touches name)).filterMap s.config.edgeEnds

def endpointsOf (name : String) : List String :=
  (s.config.nodeNamed name).elim [] fun n =>
    n.shape.endpoints.map fun ep => (EndpointAddr.mk name ep.name).display

def withoutNode (name : String) (idx : ℕ) : GraphState :=
  { s with
    fabric := ((s.cascaded name).foldl
      (fun f ends => f.detach ends.1.display ends.2.display) s.fabric).dropEndpoints
        (s.endpointsOf name)
    nodes := s.nodes.eraseIdx idx
    config :=
      { nodes := s.config.nodes.filter (·.name ≠ name)
        edges := s.config.edges.filter fun e => e.a.node ≠ name ∧ e.b.node ≠ name } }

theorem foldl_cascadeStep (xs : List (EndpointAddr × EndpointAddr)) (f : Fabric String) (m n : ℕ) :
    (xs.foldl (s.cascadeStep ambient) (f, m, n)).1 =
      xs.foldl (fun f ends => f.detach ends.1.display ends.2.display) f := by
  induction xs generalizing f m n with
  | nil => rfl
  | cons x xs ih => exact ih _ _ _

def candidate (edge : EdgeConfig) : GraphConfig :=
  { s.config with edges := s.config.edges ++ [edge] }

def attachment (edge : EdgeConfig) (host target : EndpointAddr) (fanout : List AttachedSink)
    (inbox : Channel HostwardChannel) (slot : TargetEdge) : AttachOutcome × Fabric String :=
  s.fabric.attach host.display target.display target s.nextEdgeOrigin
    (s.config.effectiveWriteMode edge) (hostwardDepth s.config host.node) fanout inbox slot

def connected (edge : EdgeConfig) (host target : EndpointAddr)
    (r : AttachOutcome × Fabric String) : Except RpcError Reply × GraphState :=
  ({ s with fabric := r.2, nextEdgeOrigin := s.nextEdgeOrigin + 1 }).finishConnect ambient edge host
    target (s.config.effectiveWriteMode edge) r.1

theorem connect_cases (edge : EdgeConfig) :
    (∃ e, s.connect d ambient edge = (.error e, s)) ∨
      (∃ e, s.connect d ambient edge =
        (.error e, { s with nextEdgeOrigin := s.nextEdgeOrigin + 1 })) ∨
      ∃ host target fanout inbox slot, (s.candidate edge).Valid d.loopbackIp ∧
        s.config.edgeEnds edge = some (host, target) ∧
        s.fabric.hostFanout[host.display]? = some fanout ∧
        s.fabric.targetInbox[target.display]? = some inbox ∧
        s.fabric.targetEdges[target.display]? = some slot ∧
        (s.attachment edge host target fanout inbox slot).1.inboxFull = false ∧
        s.connect d ambient edge =
          s.connected ambient edge host target (s.attachment edge host target fanout inbox slot) := by
  rw [connect]
  rcases d.structuralErrors_cases (s.candidate edge) with ⟨e, he⟩ | ⟨hnone, hv⟩
  · exact .inl ⟨e, by rw [candidate] at he; simp only [he]⟩
  rw [candidate] at hnone
  simp only [hnone]
  cases hends : GraphConfig.edgeEnds { s.config with edges := s.config.edges ++ [edge] } edge with
  | none => exact .inl ⟨_, rfl⟩
  | some x =>
    obtain ⟨host, target⟩ := x
    dsimp only
    cases hfanout : s.fabric.hostFanout[host.display]? with
    | none => exact .inl ⟨_, rfl⟩
    | some fanout =>
      dsimp only
      cases hinbox : s.fabric.targetInbox[target.display]? with
      | none => exact .inl ⟨_, rfl⟩
      | some inbox =>
        dsimp only
        cases hslot : s.fabric.targetEdges[target.display]? with
        | none => exact .inl ⟨_, rfl⟩
        | some slot =>
          refine .inr ?_
          change (∃ e, s.attachConnect d ambient edge host target
            (s.config.effectiveWriteMode edge) (hostwardDepth s.config host.node) fanout
            inbox slot = _) ∨ _
          cases hfull : (s.attachment edge host target fanout inbox slot).1.inboxFull with
          | true =>
            refine .inl ⟨_, (if_pos hfull).trans (Prod.ext rfl ?_)⟩
            dsimp only
            rw [Fabric.attach_full hfanout hinbox hslot hfull]
          | false =>
            refine .inr ⟨host, target, fanout, inbox, slot, hv, hends, hfanout, hinbox,
              hslot, hfull, ?_⟩
            exact if_neg (Bool.eq_false_iff.mp hfull)

theorem disconnect_found {edge e : EdgeConfig} {index : ℕ} {host target : EndpointAddr}
    (hidx : s.config.edges.findIdx? (sameEdge · edge) = some index)
    (hi : s.config.edges[index]? = some e) (hends : s.config.edgeEnds e = some (host, target)) :
    s.disconnect ambient edge =
      (.ok (.disconnected host.display target.display
          (some (s.fabric.holdsLock target.display, s.detachPurge ambient target.display))),
        { s with
          fabric := s.fabric.detach host.display target.display
          config := { s.config with edges := s.config.edges.eraseIdx index } }) := by
  rw [disconnect, hidx]
  dsimp only
  rw [hi, Option.bind_some, hends]

inductive Called : Except RpcError Reply × GraphState → Prop
  | refused (e : RpcError) : Called (.error e, s)
  | numbered (e : RpcError) : Called (.error e, { s with nextEdgeOrigin := s.nextEdgeOrigin + 1 })
  | loaded {config : GraphConfig} {nodes : List Node} (replace : Bool) (reply : Reply)
      (hv : config.Valid d.loopbackIp) (hnodes : d.instantiateAll config.nodes = .ok nodes) :
      Called (.ok reply, (if replace then s.teardown else s).created config nodes)
  | added {config : NodeConfig} {node : Node} (reply : Reply)
      (hv : GraphConfig.Valid { s.config with nodes := s.config.nodes ++ [config] } d.loopbackIp)
      (hname : node.name = config.name) : Called (.ok reply, s.withNode config node)
  | removed {name : String} {idx : ℕ} (reply : Reply)
      (hidx : s.nodes.findIdx? (·.name = name) = some idx) :
      Called (.ok reply, s.withoutNode name idx)
  | connected {edge : EdgeConfig} {host target : EndpointAddr} {fanout : List AttachedSink}
      {inbox : Channel HostwardChannel} {slot : TargetEdge}
      (hv : (s.candidate edge).Valid d.loopbackIp)
      (hends : s.config.edgeEnds edge = some (host, target))
      (hfanout : s.fabric.hostFanout[host.display]? = some fanout)
      (hroom : (s.attachment edge host target fanout inbox slot).1.inboxFull = false) :
      Called (s.connected ambient edge host target (s.attachment edge host target fanout inbox slot))
  | endless {index : ℕ} {e : EdgeConfig} (reply : Reply) (hi : s.config.edges[index]? = some e)
      (hends : s.config.edgeEnds e = none) :
      Called (.ok reply,
        { s with config := { s.config with edges := s.config.edges.eraseIdx index } })
  | disconnected {index : ℕ} {e : EdgeConfig} {host target : EndpointAddr} (reply : Reply)
      (hi : s.config.edges[index]? = some e) (hends : s.config.edgeEnds e = some (host, target)) :
      Called (.ok reply,
        { s with
          fabric := s.fabric.detach host.display target.display
          config := { s.config with edges := s.config.edges.eraseIdx index } })

theorem load_called (config : GraphConfig) (replace : Bool) :
    Called d ambient s (s.load d ambient config replace) := by
  rw [load]
  rcases d.structuralErrors_cases config with ⟨e, he⟩ | ⟨hnone, hv⟩
  · rw [he]
    exact .refused e
  rw [hnone]
  dsimp only
  cases hcodec : d.precheckCodecs config.nodes with
  | error e => exact .refused e
  | ok u =>
    dsimp only
    cases d.precheckFlowControl ambient config.nodes with
    | error e => exact .refused e
    | ok u' =>
      obtain ⟨nodes, hnodes⟩ := Daemon.instantiateAll_of_checked hv.fields hcodec
      dsimp only
      cases replace with
      | true =>
        rw [if_pos rfl, create, if_neg (by simp [teardown]), hnodes]
        exact .loaded true _ hv hnodes
      | false =>
        rw [if_neg Bool.false_ne_true, create]
        split_ifs with hempty
        · exact .refused _
        · rw [hnodes]
          exact .loaded false _ hv hnodes

theorem addNode_called (config : NodeConfig) : Called d ambient s (s.addNode d ambient config) := by
  rw [addNode]
  cases d.captureIdentity ambient config with
  | error e => exact .refused e
  | ok config' =>
    dsimp only
    cases d.precheckCodecs [config'] with
    | error e => exact .refused e
    | ok u =>
      dsimp only
      cases d.precheckFlowControl ambient [config'] with
      | error e => exact .refused e
      | ok u' =>
        dsimp only
        rw [insertNode]
        rcases d.structuralErrors_cases { s.config with nodes := s.config.nodes ++ [config'] }
          with ⟨e, he⟩ | ⟨hnone, hv⟩
        · rw [he]
          exact .refused e
        · rw [hnone]
          dsimp only
          cases hnode : d.instantiate config' with
          | error reason => exact .refused _
          | ok node => exact .added _ hv (Daemon.instantiate_name hnode)

theorem removeNode_called (name : String) (cascade : Bool) :
    Called d ambient s (s.removeNode d ambient name cascade) := by
  rw [removeNode]
  cases hidx : s.nodes.findIdx? (·.name = name) with
  | none => exact .refused _
  | some idx =>
    dsimp only
    split_ifs with hedges
    · exact .refused _
    · rw [foldl_cascadeStep]
      exact .removed _ hidx

theorem disconnect_called (edge : EdgeConfig) : Called d ambient s (s.disconnect ambient edge) := by
  rw [disconnect]
  cases hidx : s.config.edges.findIdx? (sameEdge · edge) with
  | none => exact .refused _
  | some index =>
    have hlt : index < s.config.edges.length := (findIdx?_eq_some_iff_getElem.mp hidx).1
    have hget := List.getElem?_eq_getElem hlt
    dsimp only
    rw [hget, Option.bind_some]
    cases hends : s.config.edgeEnds s.config.edges[index] with
    | none => exact .endless _ hget hends
    | some ends => exact .disconnected _ hget hends

theorem call_called (call : GraphCall) : Called d ambient s (s.call d ambient call) := by
  cases call with
  | load params =>
    cases params with
    | error e => exact .refused e
    | ok x => exact s.load_called d ambient x.1 x.2
  | addNode params =>
    cases params with
    | error e => exact .refused e
    | ok config => exact s.addNode_called d ambient config
  | removeNode params =>
    cases params with
    | error e => exact .refused e
    | ok x => exact s.removeNode_called d ambient x.1 x.2
  | connect params =>
    cases params with
    | error e => exact .refused e
    | ok edge =>
      change Called d ambient s (s.connect d ambient edge)
      rcases s.connect_cases d ambient edge with ⟨e, he⟩ | ⟨e, he⟩ |
        ⟨host, target, fanout, inbox, slot, hv, hends, hfanout, -, -, hroom, hok⟩
      · rw [he]
        exact .refused e
      · rw [he]
        exact .numbered e
      · rw [hok]
        exact .connected hv hends hfanout hroom
  | disconnect params =>
    cases params with
    | error e => exact .refused e
    | ok edge => exact s.disconnect_called d ambient edge

end GraphState
end SerialNexus
