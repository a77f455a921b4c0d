import SerialNexus.ConfigValid

/-! # What an accepted configuration guarantees

`GraphConfig.Sound` lists what the rest of the daemon relies on, without the validator's lookups.
`validateIn` is the validator with the orders of the source's hash maps as a parameter: the verdict
depends neither on them nor on the order of the node and edge lists. -/

namespace SerialNexus

open List
open Std (ExtTreeMap)

structure Listing where
  shapes : List (String × NodeShape)
  targets : List EndpointAddr
  vertices : List String

namespace GraphModel

variable (m : GraphModel)

def linkedTargets : List EndpointAddr := m.ends.map Prod.snd

structure Lists (o : Listing) : Prop where
  shapes : o.shapes.Perm m.shapes.toList
  targets : o.targets.Perm m.linkedTargets.dedup
  vertices : o.vertices.Perm (m.shapes.keys ++ m.arcs.map Prod.fst).dedup

def validateIn (o : Listing) : List ValidationError :=
  (o.shapes.flatMap fun x => nameErrors x.1 x.2) ++
  m.checkedEdges.filterMap checkError ++
  ((o.targets.filter fun a => 1 < m.linkedTargets.count a).map fun a =>
    .targetEndpointOversubscribed a (m.linkedTargets.count a)) ++
  ((CycleSearch.findCycle (adjacency m.arcs) o.vertices).map ValidationError.cycle).toList

def keyOrder : Listing where
  shapes := m.shapes.toList
  targets := m.linkedTargets.dedup
  vertices := (m.shapes.keys ++ m.arcs.map Prod.fst).dedup

variable {m}

theorem keyOrder_lists : m.Lists m.keyOrder := ⟨.refl _, .refl _, .refl _⟩

theorem validate_eq_validateIn : m.validate = m.validateIn m.keyOrder := rfl

theorem mem_shapes_of_resolve {a : EndpointAddr} {ep : EndpointSpec} (h : m.resolve a = .ok ep) :
    a.node ∈ m.shapes.keys := by
  rw [ExtTreeMap.mem_keys, ExtTreeMap.mem_iff_isSome_getElem?]
  unfold resolve at h
  cases hs : m.shapes[a.node]? with
  | none =>
    rw [hs] at h
    cases h
  | some shape => rfl

theorem mem_shapes_of_ends {x : EndpointAddr × EndpointAddr} (h : x ∈ m.ends) :
    x.1.node ∈ m.shapes.keys ∧ x.2.node ∈ m.shapes.keys := by
  obtain ⟨r, hr, hx⟩ := mem_filterMap.mp h
  obtain ⟨⟨edge, i⟩, -, rfl⟩ := mem_map.mp hr
  dsimp only [checkEdge] at hx
  cases ha : m.resolve edge.a with
  | error e =>
    rw [ha] at hx
    cases hx
  | ok a =>
    cases hb : m.resolve edge.b with
    | error e =>
      rw [ha, hb] at hx
      cases hx
    | ok b =>
      have hka := mem_shapes_of_resolve ha
      have hkb := mem_shapes_of_resolve hb
      rw [ha, hb] at hx
      dsimp only at hx
      cases hfa : a.facing <;> cases hfb : b.facing <;> rw [hfa, hfb] at hx <;> cases hx
      · exact ⟨hkb, hka⟩
      · exact ⟨hka, hkb⟩

theorem mem_shapes_of_arc {u w : String} (h : CycleSearch.Arc (adjacency m.arcs) u w) :
    u ∈ m.shapes.keys ∧ w ∈ m.shapes.keys := by
  simp only [CycleSearch.Arc, adjacency, mem_map, mem_filter, arcs, decide_eq_true_eq] at h
  obtain ⟨_, ⟨⟨x, hx, rfl⟩, rfl⟩, rfl⟩ := h
  exact mem_shapes_of_ends hx

theorem Lists.findCycle_eq_none_iff {o : Listing} (h : m.Lists o) :
    CycleSearch.findCycle (adjacency m.arcs) o.vertices = none ↔
      CycleSearch.Acyclic (adjacency m.arcs) := by
  refine CycleSearch.findCycle_eq_none_iff fun u w harc => ?_
  obtain ⟨hu, hw⟩ := mem_shapes_of_arc harc
  simp only [h.vertices.mem_iff, mem_dedup, mem_append]
  exact ⟨.inl hu, .inl hw⟩

theorem Lists.validateIn_eq_nil_iff {o o' : Listing} (h : m.Lists o) (h' : m.Lists o') :
    m.validateIn o = [] ↔ m.validateIn o' = [] := by
  have hshapes : ∀ x, x ∈ o.shapes ↔ x ∈ o'.shapes := fun _ =>
    (h.shapes.trans h'.shapes.symm).mem_iff
  have htargets : ∀ a, a ∈ o.targets ↔ a ∈ o'.targets := fun _ =>
    (h.targets.trans h'.targets.symm).mem_iff
  simp only [validateIn, append_eq_nil_iff, flatMap_eq_nil_iff, map_eq_nil_iff,
    filter_eq_nil_iff, Option.toList_eq_nil_iff, Option.map_eq_none_iff,
    h.findCycle_eq_none_iff, h'.findCycle_eq_none_iff, hshapes, htargets]

end GraphModel

theorem NodeConfig.arbitration_of_host {n : NodeConfig} {ep : EndpointSpec}
    (hep : ep ∈ n.shape.endpoints) (hf : ep.facing = .host) : ep.arbitration = n.arbitration := by
  cases n <;>
    simp only [shape, NodeShape.singleArb, NodeShape.single, mem_cons, mem_map,
      not_mem_nil, or_false] at hep
  case serial s =>
    rw [hep]
    rfl
  case pty p =>
    rw [hep] at hf
    cases hf
  case log l =>
    rw [hep] at hf
    cases hf
  case codec c =>
    rcases hep with rfl | ⟨ch, -, rfl⟩
    · exact if_pos hf
    · exact if_pos hf
  case leg l =>
    obtain ⟨ch, -, rfl⟩ := hep
    exact if_pos hf
  case map p =>
    rcases hep with rfl | rfl
    · rfl
    · cases hf

namespace GraphConfig

variable (c : GraphConfig)

def validateIn (loopbackIp : String → Option Bool) (o : Listing) : List ValidationError :=
  nodesErrors loopbackIp [] c.nodes ++ c.edgesErrors 0 [] c.edges ++ c.toModel.validateIn o

def HasEndpoint (a : EndpointAddr) (ep : EndpointSpec) : Prop :=
  ∃ n ∈ c.nodes, n.name = a.node ∧ ep ∈ n.shape.endpoints ∧ ep.name = a.endpoint

def Faces (a : EndpointAddr) (f : Facing) : Prop := ∃ ep, c.HasEndpoint a ep ∧ ep.facing = f

def ExclusiveHost (a : EndpointAddr) : Prop :=
  ∃ ep, c.HasEndpoint a ep ∧ ep.facing = .host ∧ ep.arbitration = .exclusive

def Joins (e : EdgeConfig) (host target : EndpointAddr) : Prop :=
  ((e.a = host ∧ e.b = target) ∨ (e.a = target ∧ e.b = host)) ∧
    c.Faces host .host ∧ c.Faces target .target

def NodeArc (u w : String) : Prop :=
  ∃ e ∈ c.edges, ∃ host target, c.Joins e host target ∧ host.node = u ∧ target.node = w

def Pumped (a : EndpointAddr) : Prop :=
  ∃ n ∈ c.nodes, n.name = a.node ∧
    ((n.isCodec ∧ a.endpoint = defaultEndpoint) ∨ (n.isMap ∧ a.endpoint = mapRawEndpoint))

def edgesAt (a : EndpointAddr) : List EdgeConfig := c.edges.filter fun e => e.a = a ∨ e.b = a

structure Sound : Prop where
  names : (c.nodes.map NodeConfig.name).Nodup
  legal : ∀ n ∈ c.nodes, n.name ≠ "" ∧ LegalName n.name
  endpoints : ∀ n ∈ c.nodes, (n.shape.endpoints.map EndpointSpec.name).Nodup
  edges : ∀ e ∈ c.edges, ∃ host target, c.Joins e host target
  targets : ∀ target, c.Faces target .target → (c.edgesAt target).length ≤ 1
  acyclic : ∀ node, ¬ Relation.TransGen c.NodeArc node node
  held : ∀ host, c.ExclusiveHost host →
    ((c.edgesAt host).filter fun e => c.effectiveWriteMode e = .held).length ≤ 1
  pumped : ∀ e ∈ c.edges, ∀ host target, c.Joins e host target → c.ExclusiveHost host →
    c.Pumped target → c.effectiveWriteMode e = .held ∨ c.effectiveWriteMode e = .never

structure Admissible (loopbackIp : String → Option Bool) : Prop where
  fields : ∀ n ∈ c.nodes, n.errors loopbackIp = []
  endpointNames : ∀ n ∈ c.nodes, ∀ ep ∈ n.shape.endpoints, LegalName ep.name

section lookups

variable {c} (hn : c.names.Nodup)
  (hep : ∀ n ∈ c.nodes, (n.shape.endpoints.map EndpointSpec.name).Nodup)
include hn hep

variable {a : EndpointAddr}

theorem hasEndpoint_iff {ep : EndpointSpec} :
    c.HasEndpoint a ep ↔ (c.nodeNamed a.node).bind (·.shape.endpoint a.endpoint) = some ep := by
  simp only [HasEndpoint, Option.bind_eq_some_iff, nodeNamed_eq_some_iff hn]
  constructor
  · rintro ⟨n, hmem, hname, hin, hkey⟩
    exact ⟨n, ⟨hmem, hname⟩,
      (Keyed.find?_eq_some_iff EndpointSpec.name (hep n hmem)).mpr ⟨hin, hkey⟩⟩
  · rintro ⟨n, ⟨hmem, hname⟩, hfind⟩
    obtain ⟨hin, hkey⟩ := (Keyed.find?_eq_some_iff EndpointSpec.name (hep n hmem)).mp hfind
    exact ⟨n, hmem, hname, hin, hkey⟩

theorem faces_iff {f : Facing} : c.Faces a f ↔ c.endpointFacing a = some f := by
  have hfacing : c.endpointFacing a =
      ((c.nodeNamed a.node).bind (·.shape.endpoint a.endpoint)).map EndpointSpec.facing := by
    unfold endpointFacing
    cases c.nodeNamed a.node with
    | none => rfl
    | some n =>
      cases hfind : n.shape.endpoint a.endpoint with
      | none | some => simp [hfind]
  rw [hfacing, Option.map_eq_some_iff, Faces]
  simp only [hasEndpoint_iff hn hep]

theorem joins_iff {e : EdgeConfig} {host target : EndpointAddr} :
    c.Joins e host target ↔ c.edgeEnds e = some (host, target) := by
  simp only [Joins, faces_iff hn hep]
  constructor
  · rintro ⟨⟨rfl, rfl⟩ | ⟨rfl, rfl⟩, hh, ht⟩
    · simp [edgeEnds, hh, ht]
    · simp [edgeEnds, hh, ht]
  · intro h
    obtain ⟨hh, ht, hcase⟩ := edgeEnds_cases h
    refine ⟨?_, hh, ht⟩
    rcases hcase with ⟨rfl, rfl⟩ | ⟨rfl, rfl⟩
    · exact .inl ⟨rfl, rfl⟩
    · exact .inr ⟨rfl, rfl⟩

theorem exclusiveHost_iff :
    c.ExclusiveHost a ↔ c.endpointFacing a = some .host ∧ c.endpointArbitrates a = true := by
  have harb : ∀ ep, c.HasEndpoint a ep → ep.facing = .host →
      (c.endpointArbitrates a = true ↔ ep.arbitration = .exclusive) := by
    rintro ep ⟨n, hmem, hname, hin, -⟩ hf
    have hnode := (nodeNamed_eq_some_iff hn).mpr ⟨hmem, hname⟩
    rw [endpointArbitrates, hnode, NodeConfig.arbitration_of_host hin hf]
    simp only [Option.map_some, ne_eq, Option.some.injEq, decide_eq_true_eq]
    cases n.arbitration with
    | exclusive | freeForAll => decide
  rw [← faces_iff hn hep]
  constructor
  · rintro ⟨ep, hhas, hf, hex⟩
    exact ⟨⟨ep, hhas, hf⟩, (harb ep hhas hf).mpr hex⟩
  · rintro ⟨⟨ep, hhas, hf⟩, harbitrates⟩
    exact ⟨ep, hhas, hf, (harb ep hhas hf).mp harbitrates⟩

theorem nodeArc_eq : c.NodeArc = CycleSearch.Arc (adjacency c.arcs) := by
  funext u w
  refine propext ?_
  simp only [NodeArc, joins_iff hn hep, CycleSearch.Arc, adjacency, mem_map, mem_filter,
    arcs, ends, mem_filterMap, decide_eq_true_eq]
  constructor
  · rintro ⟨e, he, host, target, hends, rfl, rfl⟩
    exact ⟨_, ⟨⟨(host, target), ⟨e, he, hends⟩, rfl⟩, rfl⟩, rfl⟩
  · rintro ⟨_, ⟨⟨⟨host, target⟩, ⟨e, he, hends⟩, rfl⟩, rfl⟩, rfl⟩
    exact ⟨e, he, host, target, hends, rfl, rfl⟩

end lookups

variable {c}

variable {e : EdgeConfig} {host target t h : EndpointAddr}

theorem at_target_iff (he : c.edgeEnds e = some (host, target))
    (ht : c.endpointFacing t = some .target) : (e.a = t ∨ e.b = t) ↔ target = t := by
  obtain ⟨hh, -, hcase⟩ := edgeEnds_cases he
  have hne : host ≠ t := by
    rintro rfl
    rw [hh] at ht
    cases ht
  rcases hcase with ⟨rfl, rfl⟩ | ⟨rfl, rfl⟩
  · exact or_iff_right hne
  · exact or_iff_left hne

theorem at_host_iff (he : c.edgeEnds e = some (host, target))
    (hh : c.endpointFacing h = some .host) : (e.a = h ∨ e.b = h) ↔ host = h := by
  obtain ⟨-, ht, hcase⟩ := edgeEnds_cases he
  have hne : target ≠ h := by
    rintro rfl
    rw [ht] at hh
    cases hh
  rcases hcase with ⟨rfl, rfl⟩ | ⟨rfl, rfl⟩
  · exact or_iff_left hne
  · exact or_iff_right hne

theorem length_edgesAt_target (hends : ∀ e ∈ c.edges, (c.edgeEnds e).isSome)
    (ht : c.endpointFacing t = some .target) :
    (c.edgesAt t).length = (c.ends.map Prod.snd).count t := by
  rw [ends, map_filterMap, count_filterMap, edgesAt, ← countP_eq_length_filter]
  refine countP_congr fun e he => ?_
  obtain ⟨⟨host, target⟩, hx⟩ := Option.isSome_iff_exists.mp (hends e he)
  rw [decide_eq_true_eq, at_target_iff hx ht, hx]
  simp

theorem length_held_edgesAt_host (hends : ∀ e ∈ c.edges, (c.edgeEnds e).isSome)
    (hh : c.endpointFacing h = some .host) (harb : c.endpointArbitrates h = true) :
    ((c.edgesAt h).filter fun e => c.effectiveWriteMode e = .held).length =
      (c.edges.filterMap c.heldHost).count h := by
  rw [count_filterMap, edgesAt, filter_filter, ← countP_eq_length_filter]
  refine countP_congr fun e he => ?_
  obtain ⟨⟨host, target⟩, hx⟩ := Option.isSome_iff_exists.mp (hends e he)
  rw [Bool.and_eq_true, decide_eq_true_eq, decide_eq_true_eq, at_host_iff hx hh, beq_iff_eq,
    heldHost, hx]
  simp only [Option.bind_some, holdsHost, Bool.and_eq_true, decide_eq_true_eq,
    Option.ite_none_right_eq_some, Option.some.injEq]
  constructor
  · rintro ⟨hm, rfl⟩
    exact ⟨⟨hm, harb⟩, rfl⟩
  · rintro ⟨⟨hm, -⟩, rfl⟩
    exact ⟨hm, rfl⟩

theorem heldHost_mem (hmem : h ∈ c.edges.filterMap c.heldHost) :
    c.endpointFacing h = some .host ∧ c.endpointArbitrates h = true := by
  obtain ⟨e, -, he⟩ := mem_filterMap.mp hmem
  obtain ⟨⟨host, target⟩, hx, hheld⟩ := Option.bind_eq_some_iff.mp he
  rw [Option.ite_none_right_eq_some, Option.some.injEq] at hheld
  obtain ⟨hheld, rfl⟩ := hheld
  exact ⟨(edgeEnds_cases hx).1, (Bool.and_eq_true _ _ ▸ hheld).2⟩

theorem ends_target (hmem : t ∈ c.ends.map Prod.snd) : c.endpointFacing t = some .target := by
  obtain ⟨⟨host, target⟩, hx, rfl⟩ := mem_map.mp hmem
  obtain ⟨e, -, he⟩ := mem_filterMap.mp hx
  exact (edgeEnds_cases he).2.1

theorem effectiveWriteMode_pumped (hn : c.names.Nodup) (he : c.edgeEnds e = some (host, target))
    (hp : c.Pumped target) :
    (c.isMultiplexedEndpoint target = true ∧ c.effectiveWriteMode e = e.writeMode) ∨
      (c.isMultiplexedEndpoint target = false ∧ c.effectiveWriteMode e ≠ .onDemand) := by
  obtain ⟨n, hmem, hname, hkind⟩ := hp
  have hnode := (nodeNamed_eq_some_iff hn).mpr ⟨hmem, hname⟩
  cases n with
  | codec k =>
    refine .inl ⟨?_, ?_⟩
    · simpa [isMultiplexedEndpoint, EndpointAddr.isDefault, hnode, NodeConfig.isCodec,
        NodeConfig.isMap] using hkind
    · simp [effectiveWriteMode, he, hnode, NodeConfig.isLog, NodeConfig.isMap]
  | map k =>
    refine .inr ⟨by simp [isMultiplexedEndpoint, hnode, NodeConfig.isCodec], ?_⟩
    have hraw : target.endpoint = mapRawEndpoint := by
      simpa [NodeConfig.isCodec, NodeConfig.isMap] using hkind
    simp only [effectiveWriteMode, he, hnode, NodeConfig.isLog, NodeConfig.isMap, Option.any_some,
      Bool.false_eq_true, if_false, hraw, and_true]
    split_ifs with hmode
    · decide
    · exact hmode
  | _ => simp [NodeConfig.isCodec, NodeConfig.isMap] at hkind

theorem muxHeld_iff (hn : c.names.Nodup) (e : EdgeConfig) :
    c.MuxHeld e ↔ ∀ host target, c.edgeEnds e = some (host, target) →
      c.endpointArbitrates host = true → c.Pumped target →
        c.effectiveWriteMode e = .held ∨ c.effectiveWriteMode e = .never := by
  constructor
  · intro h host target he harb hp
    rcases effectiveWriteMode_pumped hn he hp with ⟨hmux, hmode⟩ | ⟨-, hmode⟩
    · rw [hmode]
      exact h host target he hmux harb
    · cases hw : c.effectiveWriteMode e with
      | never => exact .inr rfl
      | onDemand => exact absurd hw hmode
      | held => exact .inl rfl
  · intro h host target he hmux harb
    have hp : c.Pumped target := by
      rw [isMultiplexedEndpoint, Bool.and_eq_true, Option.any_eq_true] at hmux
      obtain ⟨hd, n, hnode, hcodec⟩ := hmux
      obtain ⟨hmem, hname⟩ := (nodeNamed_eq_some_iff hn).mp hnode
      exact ⟨n, hmem, hname, .inl ⟨hcodec, of_decide_eq_true hd⟩⟩
    rcases effectiveWriteMode_pumped hn he hp with ⟨-, hmode⟩ | ⟨hnot, -⟩
    · rw [← hmode]
      exact h host target he harb hp
    · rw [hmux] at hnot
      cases hnot

theorem valid_iff_sound (loopbackIp : String → Option Bool) :
    c.Valid loopbackIp ↔ c.Sound ∧ c.Admissible loopbackIp := by
  constructor
  · intro hv
    have hlegal := fun n hn => (nameErrors_eq_nil_iff _ _).mp (hv.legal n hn)
    have hep : ∀ n ∈ c.nodes, (n.shape.endpoints.map EndpointSpec.name).Nodup := fun n hn =>
      (hlegal n hn).2.2.2
    refine ⟨⟨hv.names, fun n hn => ⟨(hlegal n hn).1, (hlegal n hn).2.1⟩, hep, ?_, ?_, ?_, ?_, ?_⟩,
      ⟨hv.fields, fun n hn => (hlegal n hn).2.2.1⟩⟩
    · intro e he
      obtain ⟨⟨host, target⟩, hx⟩ := Option.isSome_iff_exists.mp (hv.ends e he)
      exact ⟨host, target, (joins_iff hv.names hep).mpr hx⟩
    · intro t ht
      rw [length_edgesAt_target hv.ends ((faces_iff hv.names hep).mp ht)]
      exact nodup_iff_count_le_one.mp hv.targets t
    · rw [nodeArc_eq hv.names hep]
      exact hv.acyclic
    · intro h hex
      obtain ⟨hh, harb⟩ := (exclusiveHost_iff hv.names hep).mp hex
      rw [length_held_edgesAt_host hv.ends hh harb]
      exact nodup_iff_count_le_one.mp hv.held h
    · intro e he host target hj hex hp
      exact (muxHeld_iff hv.names e).mp (hv.mux e he) host target
        ((joins_iff hv.names hep).mp hj) ((exclusiveHost_iff hv.names hep).mp hex).2 hp
  · rintro ⟨hs, ha⟩
    have hep := hs.endpoints
    have hends : ∀ e ∈ c.edges, (c.edgeEnds e).isSome := by
      intro e he
      obtain ⟨host, target, hj⟩ := hs.edges e he
      rw [(joins_iff hs.names hep).mp hj]
      rfl
    refine ⟨hs.names, ha.fields, fun n hn => ?_, hends, fun e he => ?_, ?_, ?_, ?_⟩
    · exact (nameErrors_eq_nil_iff _ _).mpr
        ⟨(hs.legal n hn).1, (hs.legal n hn).2, ha.endpointNames n hn, hep n hn⟩
    · refine (muxHeld_iff hs.names e).mpr fun host target hx harb hp => ?_
      have hj := (joins_iff hs.names hep).mpr hx
      exact hs.pumped e he host target hj
        ((exclusiveHost_iff hs.names hep).mpr ⟨(edgeEnds_cases hx).1, harb⟩) hp
    · refine nodup_iff_count_le_one.mpr fun h => ?_
      by_cases hmem : h ∈ c.edges.filterMap c.heldHost
      · obtain ⟨hh, harb⟩ := heldHost_mem hmem
        rw [← length_held_edgesAt_host hends hh harb]
        exact hs.held h ((exclusiveHost_iff hs.names hep).mpr ⟨hh, harb⟩)
      · rw [count_eq_zero_of_not_mem hmem]
        exact Nat.zero_le 1
    · refine nodup_iff_count_le_one.mpr fun t => ?_
      by_cases hmem : t ∈ c.ends.map Prod.snd
      · have ht := ends_target hmem
        rw [← length_edgesAt_target hends ht]
        exact hs.targets t ((faces_iff hs.names hep).mpr ht)
      · rw [count_eq_zero_of_not_mem hmem]
        exact Nat.zero_le 1
    · have := hs.acyclic
      rwa [nodeArc_eq hs.names hep] at this

structure Reorders (c' c : GraphConfig) : Prop where
  nodes : c'.nodes.Perm c.nodes
  edges : c'.edges.Perm c.edges

variable {c' : GraphConfig}

theorem Reorders.symm (h : Reorders c' c) : Reorders c c' := ⟨h.nodes.symm, h.edges.symm⟩

theorem Reorders.names (h : Reorders c' c) : c'.names.Perm c.names := h.nodes.map _

theorem Reorders.nodeNamed (h : Reorders c' c) (hn : c.names.Nodup) (name : String) :
    c'.nodeNamed name = c.nodeNamed name := by
  refine Option.ext fun n => ?_
  rw [nodeNamed_eq_some_iff hn, nodeNamed_eq_some_iff (h.names.nodup_iff.mpr hn), h.nodes.mem_iff]

theorem Reorders.valid {loopbackIp : String → Option Bool} (h : Reorders c' c)
    (hv : c.Valid loopbackIp) : c'.Valid loopbackIp := by
  have hedge := fun e : EdgeConfig =>
    edge_congr (h.nodeNamed hv.names e.a.node) (h.nodeNamed hv.names e.b.node)
  have hedgeEnds : c'.edgeEnds = c.edgeEnds := funext fun e => (hedge e).1
  have hheldHost : c'.heldHost = c.heldHost := funext fun e => (hedge e).2.2.1
  have hends : c'.ends.Perm c.ends := by
    rw [GraphConfig.ends, hedgeEnds]
    exact h.edges.filterMap c.edgeEnds
  refine ⟨h.names.nodup_iff.mpr hv.names, fun n hn => hv.fields n (h.nodes.mem_iff.mp hn),
    fun n hn => hv.legal n (h.nodes.mem_iff.mp hn), fun e he => ?_, fun e he => ?_, ?_,
    (hends.map _).nodup_iff.mpr hv.targets, hv.acyclic.mono fun v => ?_⟩
  · rw [hedgeEnds]
    exact hv.ends e (h.edges.mem_iff.mp he)
  · exact (hedge e).2.2.2.mpr (hv.mux e (h.edges.mem_iff.mp he))
  · rw [hheldHost]
    exact (h.edges.filterMap c.heldHost).nodup_iff.mpr hv.held
  · exact (((hends.map _).filter _).map _).subset

theorem validateIn_eq_nil_iff (loopbackIp : String → Option Bool) {o : Listing}
    (ho : c.toModel.Lists o) : c.validateIn loopbackIp o = [] ↔ c.Valid loopbackIp := by
  rw [← validate_eq_nil_iff, validate, validateIn, append_eq_nil_iff,
    ho.validateIn_eq_nil_iff GraphModel.keyOrder_lists, ← GraphModel.validate_eq_validateIn,
    ← append_eq_nil_iff]

theorem accepted_iff_sound (loopbackIp : String → Option Bool) (c : GraphConfig) (o : Listing)
    (ho : c.toModel.Lists o) :
    (c.validateIn loopbackIp o = [] ↔ c.Sound ∧ c.Admissible loopbackIp) ∧
      (c.validateIn loopbackIp o = [] → c.Sound) ∧
      (¬ c.Sound → c.validateIn loopbackIp o ≠ []) ∧
      ∀ c' o', Reorders c' c → c'.toModel.Lists o' →
        (c'.validateIn loopbackIp o' = [] ↔ c.validateIn loopbackIp o = []) := by
  have hiff := (validateIn_eq_nil_iff loopbackIp ho).trans (valid_iff_sound loopbackIp)
  refine ⟨hiff, fun h => (hiff.mp h).1, fun hns h => hns (hiff.mp h).1, fun c' o' hr ho' => ?_⟩
  rw [validateIn_eq_nil_iff loopbackIp ho, validateIn_eq_nil_iff loopbackIp ho']
  exact ⟨hr.symm.valid, hr.valid⟩

def muxedConsole : GraphConfig where
  nodes := [.serial { name := "port", device := "/dev/ttyUSB0" },
    .codec { name := "mux", codec := "lines", channels := ["con"] }, .map { name := "crlf" },
    .pty { name := "tty" }, .log { name := "raw" }]
  edges := [⟨⟨"port", ""⟩, ⟨"mux", ""⟩, .held⟩, ⟨⟨"crlf", "raw"⟩, ⟨"mux", "con"⟩, .onDemand⟩,
    ⟨⟨"tty", ""⟩, ⟨"crlf", ""⟩, .onDemand⟩, ⟨⟨"port", ""⟩, ⟨"raw", ""⟩, .never⟩]

def muxedConsoleReversed : GraphConfig := { muxedConsole with edges := muxedConsole.edges.reverse }

theorem muxedConsole_accepted :
    muxedConsole.Sound ∧
      muxedConsoleReversed.validateIn (fun _ => none) muxedConsoleReversed.toModel.keyOrder = [] := by
  have h := accepted_iff_sound (fun _ => none) muxedConsole _ GraphModel.keyOrder_lists
  have hok : muxedConsole.validateIn (fun _ => none) muxedConsole.toModel.keyOrder = [] := by
    decide +kernel
  exact ⟨h.2.1 hok, (h.2.2.2 muxedConsoleReversed _ ⟨.refl _, reverse_perm _⟩
    GraphModel.keyOrder_lists).mpr hok⟩

end GraphConfig
end SerialNexus
