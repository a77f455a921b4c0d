import SerialNexus.Keyed
import SerialNexus.Config

/-! # Valid configurations

What it means that `GraphConfig::validate` finds nothing, and that valid configurations are closed
under dropping edges, and nodes with their edges: `disconnect` and `remove-node` do not validate. -/

namespace SerialNexus

open List
open Std (ExtTreeMap)

/-! ### Names -/

structure LegalName (name : String) : Prop where
  noSlash : '/' ∉ name.toList
  notBlank : name ≠ "" → isBlank name = false
  short : name.utf8ByteSize ≤ maxNameLen

theorem endpointErrors_eq_nil_iff (node : String) (seen : List String) (ep : EndpointSpec) :
    endpointErrors node seen ep = [] ↔ LegalName ep.name ∧ ep.name ∉ seen := by
  simp only [endpointErrors, append_eq_nil_iff, ite_eq_right_iff, cons_ne_nil, imp_false,
    not_and, Bool.not_eq_true, not_lt]
  constructor
  · rintro ⟨⟨⟨h1, h2⟩, h3⟩, h4⟩
    exact ⟨⟨h1, h2, h3⟩, h4⟩
  · rintro ⟨⟨h1, h2, h3⟩, h4⟩
    exact ⟨⟨⟨h1, h2⟩, h3⟩, h4⟩

theorem endpointsErrors_eq_nil_iff (node : String) (seen : List String) (eps : List EndpointSpec) :
    endpointsErrors node seen eps = [] ↔
      (∀ ep ∈ eps, LegalName ep.name) ∧ (eps.map EndpointSpec.name).Nodup ∧
        ∀ ep ∈ eps, ep.name ∉ seen := by
  induction eps generalizing seen with
  | nil => simp [endpointsErrors]
  | cons ep eps ih =>
    rw [endpointsErrors, append_eq_nil_iff, endpointErrors_eq_nil_iff, ih]
    exact Keyed.seen_cons_iff EndpointSpec.name (fun ep => LegalName ep.name) seen ep eps

theorem nameErrors_eq_nil_iff (node : String) (shape : NodeShape) :
    nameErrors node shape = [] ↔
      node ≠ "" ∧ LegalName node ∧ (∀ ep ∈ shape.endpoints, LegalName ep.name) ∧
        (shape.endpoints.map EndpointSpec.name).Nodup := by
  simp only [nameErrors, append_eq_nil_iff, endpointsErrors_eq_nil_iff, ite_eq_right_iff,
    cons_ne_nil, imp_false, not_and, Bool.not_eq_true, not_lt, not_mem_nil,
    not_false_eq_true, implies_true, and_true]
  constructor
  · rintro ⟨⟨⟨⟨h1, h2⟩, h3⟩, h4⟩, h5⟩
    exact ⟨h1, ⟨h3, h2, h4⟩, h5⟩
  · rintro ⟨h1, ⟨h3, h2, h4⟩, h5⟩
    exact ⟨⟨⟨⟨h1, h2⟩, h3⟩, h4⟩, h5⟩

theorem nodesErrors_eq_nil_iff (loopbackIp : String → Option Bool) (seen : List String)
    (nodes : List NodeConfig) :
    nodesErrors loopbackIp seen nodes = [] ↔
      (∀ n ∈ nodes, n.errors loopbackIp = []) ∧ (nodes.map NodeConfig.name).Nodup ∧
        ∀ n ∈ nodes, n.name ∉ seen := by
  induction nodes generalizing seen with
  | nil => simp [nodesErrors]
  | cons n nodes ih =>
    rw [← Keyed.seen_cons_iff, nodesErrors, append_eq_nil_iff, append_eq_nil_iff, ih]
    simp only [ite_eq_right_iff, cons_ne_nil, imp_false]
    exact and_congr_left fun _ => And.comm

namespace GraphConfig

variable (c : GraphConfig)

def names : List String := c.nodes.map NodeConfig.name

def ends : List (EndpointAddr × EndpointAddr) := c.edges.filterMap c.edgeEnds

def arcs : List (String × String) := c.ends.map fun x => (x.1.node, x.2.node)

def heldHost (edge : EdgeConfig) : Option EndpointAddr :=
  (c.edgeEnds edge).bind fun x => if c.holdsHost edge x.1 then some x.1 else none

def MuxHeld (edge : EdgeConfig) : Prop :=
  ∀ host target, c.edgeEnds edge = some (host, target) → c.isMultiplexedEndpoint target = true →
    c.endpointArbitrates host = true → edge.writeMode = .held ∨ edge.writeMode = .never

structure Valid (loopbackIp : String → Option Bool) : Prop where
  names : c.names.Nodup
  fields : ∀ n ∈ c.nodes, n.errors loopbackIp = []
  legal : ∀ n ∈ c.nodes, nameErrors n.name n.shape = []
  ends : ∀ e ∈ c.edges, (c.edgeEnds e).isSome
  mux : ∀ e ∈ c.edges, c.MuxHeld e
  held : (c.edges.filterMap c.heldHost).Nodup
  targets : (c.ends.map Prod.snd).Nodup
  acyclic : CycleSearch.Acyclic (adjacency c.arcs)

theorem edgesErrors_eq_nil_iff (i : ℕ) (held : List (EndpointAddr × EndpointAddr))
    (edges : List EdgeConfig) :
    c.edgesErrors i held edges = [] ↔
      (∀ e ∈ edges, c.MuxHeld e) ∧ (edges.filterMap c.heldHost).Nodup ∧
        ∀ h ∈ edges.filterMap c.heldHost, h ∉ held.map Prod.fst := by
  induction edges generalizing i held with
  | nil => simp [edgesErrors]
  | cons e edges ih =>
    rw [edgesErrors]
    cases he : c.edgeEnds e with
    | none =>
      have hmux : c.MuxHeld e := by simp [MuxHeld, he]
      have hhost : c.heldHost e = none := by simp [heldHost, he]
      simp only [ih, forall_mem_cons, hmux, true_and, filterMap_cons, hhost]
    | some x =>
      obtain ⟨host, target⟩ := x
      have hmux : (if c.isMultiplexedEndpoint target ∧ c.endpointArbitrates host ∧
            e.writeMode ≠ .held ∧ e.writeMode ≠ .never then
          [ValidationError.multiplexedEdgeNotHeld i host target e.writeMode] else []) = [] ↔
          c.MuxHeld e := by
        simp only [MuxHeld, he, Option.some.injEq, Prod.mk.injEq, ite_eq_right_iff,
          cons_ne_nil, imp_false]
        constructor
        · rintro h _ _ ⟨rfl, rfl⟩ hm ha
          by_contra hmode
          exact h ⟨hm, ha, not_or.mp hmode⟩
        · rintro h ⟨hm, ha, hmode⟩
          exact not_or.mpr hmode (h host target ⟨rfl, rfl⟩ hm ha)
      simp only [append_eq_nil_iff, hmux, forall_mem_cons, and_assoc]
      refine and_congr_right fun _ => ?_
      by_cases hh : c.holdsHost e host = true
      · have hhost : c.heldHost e = some host := by simp [heldHost, he, hh]
        simp only [hh, if_true, filterMap_cons, hhost, nodup_cons, forall_mem_cons]
        have hlookup : held.lookup host = none ↔ host ∉ held.map Prod.fst := by
          rw [lookup_eq_none_iff, mem_map]
          grind
        cases hl : held.lookup host with
        | some first =>
          have hin : host ∈ held.map Prod.fst := by
            rw [hl] at hlookup
            simpa using hlookup
          simp [hin]
        | none =>
          have hout := hlookup.mp hl
          simp only [ih, map_cons, mem_cons, not_or]
          constructor
          · rintro ⟨hm, hnd, hfresh⟩
            exact ⟨hm, ⟨fun hmem => (hfresh host hmem).1 rfl, hnd⟩, hout,
              fun h hmem => (hfresh h hmem).2⟩
          · rintro ⟨hm, ⟨hne, hnd⟩, -, hfresh⟩
            refine ⟨hm, hnd, fun h hmem => ⟨?_, hfresh h hmem⟩⟩
            rintro rfl
            exact hne hmem
      · have hhost : c.heldHost e = none := by simp [heldHost, he, hh]
        simp only [hh, Bool.false_eq_true, if_false, ih, filterMap_cons, hhost]

variable {c}

variable {name : String}

theorem nodeNamed_eq_some_iff (hn : c.names.Nodup) {n : NodeConfig} :
    c.nodeNamed name = some n ↔ n ∈ c.nodes ∧ n.name = name :=
  Keyed.find?_eq_some_iff NodeConfig.name hn

theorem nodeNamed_isSome_iff : (c.nodeNamed name).isSome ↔ name ∈ c.names := by
  simp [nodeNamed, names, find?_isSome]

theorem toModel_shapes (hn : c.names.Nodup) (name : String) :
    c.toModel.shapes[name]? = (c.nodeNamed name).map NodeConfig.shape := by
  have := Keyed.getElem?_foldl_insert NodeConfig.name NodeConfig.shape hn ∅ name
  simpa [toModel, nodeNamed] using this

theorem mem_keys_toModel (hn : c.names.Nodup) : name ∈ c.toModel.shapes.keys ↔ name ∈ c.names := by
  rw [ExtTreeMap.mem_keys, ExtTreeMap.mem_iff_isSome_getElem?, toModel_shapes hn, Option.isSome_map,
    nodeNamed_isSome_iff]

theorem checkEdge_toOption (hn : c.names.Nodup) (i : ℕ) (e : EdgeConfig) :
    (c.toModel.checkEdge i ⟨e.a, e.b, e.writeMode⟩).toOption = c.edgeEnds e := by
  have hresolve : ∀ addr, ((c.toModel.resolve addr).toOption.map EndpointSpec.facing) =
      c.endpointFacing addr := by
    intro addr
    unfold GraphModel.resolve endpointFacing
    rw [toModel_shapes hn]
    cases c.nodeNamed addr.node with
    | none => rfl
    | some node =>
      cases hep : node.shape.endpoint addr.endpoint with
      | none | some => simp [hep, Except.toOption]
  unfold GraphModel.checkEdge edgeEnds
  rw [← hresolve e.a, ← hresolve e.b]
  cases ha : c.toModel.resolve e.a with
  | error err => rfl
  | ok a =>
    cases hb : c.toModel.resolve e.b with
    | error err =>
      cases a with
      | mk name facing arb => cases facing <;> rfl
    | ok b =>
      obtain ⟨_, fa, _⟩ := a
      obtain ⟨_, fb, _⟩ := b
      cases fa <;> cases fb <;> rfl

theorem checkedEdges_toOption (hn : c.names.Nodup) :
    c.toModel.checkedEdges.map Except.toOption = c.edges.map c.edgeEnds := by
  unfold GraphModel.checkedEdges
  have hedges : c.toModel.edges = c.edges.map fun e => ⟨e.a, e.b, e.writeMode⟩ := rfl
  rw [map_map, hedges]
  refine ext_getElem (by simp) fun i h1 h2 => ?_
  simp only [List.getElem_map, List.getElem_zipIdx, Function.comp_apply]
  exact checkEdge_toOption hn _ _

theorem toModel_ends (hn : c.names.Nodup) : c.toModel.ends = c.ends := by
  unfold GraphModel.ends GraphConfig.ends
  have hid : ∀ {α β : Type} (f : α → Option β) (l : List α), l.filterMap f = (l.map f).filterMap id :=
    fun f l => by rw [filterMap_map, Function.id_comp]
  rw [hid, hid c.edgeEnds, checkedEdges_toOption hn]

theorem toModel_oversubscribed (hn : c.names.Nodup) :
    c.toModel.oversubscribed = [] ↔ (c.ends.map Prod.snd).Nodup := by
  unfold GraphModel.oversubscribed
  rw [toModel_ends hn, nodup_iff_count_le_one]
  simp only [map_eq_nil_iff, filter_eq_nil_iff, mem_dedup, decide_eq_true_eq, not_lt]
  refine ⟨fun h a => ?_, fun h a _ => h a⟩
  by_cases ha : a ∈ c.ends.map Prod.snd
  · exact h a ha
  · rw [count_eq_zero_of_not_mem ha]
    exact Nat.zero_le 1

theorem edgeEnds_cases {e : EdgeConfig} {host target : EndpointAddr}
    (h : c.edgeEnds e = some (host, target)) :
    c.endpointFacing host = some .host ∧ c.endpointFacing target = some .target ∧
      ((host = e.a ∧ target = e.b) ∨ (host = e.b ∧ target = e.a)) := by
  unfold edgeEnds at h
  split at h
  · next ha hb =>
    cases h
    exact ⟨ha, hb, .inl ⟨rfl, rfl⟩⟩
  · next ha hb =>
    cases h
    exact ⟨hb, ha, .inr ⟨rfl, rfl⟩⟩
  · cases h

theorem mem_names_of_endpointFacing {addr : EndpointAddr} {f : Facing}
    (h : c.endpointFacing addr = some f) : addr.node ∈ c.names := by
  rw [← nodeNamed_isSome_iff]
  unfold endpointFacing at h
  cases hn : c.nodeNamed addr.node with
  | none => simp [hn] at h
  | some n => rfl

theorem adjacency_arcs_mem {u w : String} (h : CycleSearch.Arc (adjacency c.arcs) u w) :
    u ∈ c.names ∧ w ∈ c.names := by
  simp only [CycleSearch.Arc, adjacency, mem_map, mem_filter, arcs, ends,
    mem_filterMap, decide_eq_true_eq] at h
  obtain ⟨_, ⟨⟨⟨host, target⟩, ⟨e, -, he⟩, rfl⟩, rfl⟩, rfl⟩ := h
  obtain ⟨hh, ht, -⟩ := edgeEnds_cases he
  exact ⟨mem_names_of_endpointFacing hh, mem_names_of_endpointFacing ht⟩

theorem findCycle_eq_none_iff (hn : c.names.Nodup) :
    findCycle c.toModel.shapes.keys c.toModel.arcs = none ↔
      CycleSearch.Acyclic (adjacency c.arcs) := by
  have harcs : c.toModel.arcs = c.arcs := by rw [GraphModel.arcs, toModel_ends hn, arcs]
  rw [findCycle, harcs]
  refine CycleSearch.findCycle_eq_none_iff fun u w h => ?_
  obtain ⟨hu, hw⟩ := adjacency_arcs_mem h
  simp only [mem_dedup, mem_append, mem_keys_toModel hn]
  exact ⟨.inl hu, .inl hw⟩

theorem toModel_validate_eq_nil_iff (hn : c.names.Nodup) :
    c.toModel.validate = [] ↔
      (∀ n ∈ c.nodes, nameErrors n.name n.shape = []) ∧ (∀ e ∈ c.edges, (c.edgeEnds e).isSome) ∧
        (c.ends.map Prod.snd).Nodup ∧ CycleSearch.Acyclic (adjacency c.arcs) := by
  have hnames : (c.toModel.shapes.toList.flatMap fun x => nameErrors x.1 x.2) = [] ↔
      ∀ n ∈ c.nodes, nameErrors n.name n.shape = [] := by
    simp only [flatMap_eq_nil_iff, Prod.forall, ExtTreeMap.mem_toList_iff_getElem?_eq_some,
      toModel_shapes hn, Option.map_eq_some_iff, nodeNamed_eq_some_iff hn]
    constructor
    · intro h n hmem
      exact h n.name n.shape ⟨n, ⟨hmem, rfl⟩, rfl⟩
    · rintro h _ _ ⟨n, ⟨hmem, rfl⟩, rfl⟩
      exact h n hmem
  have hends : c.toModel.checkedEdges.filterMap GraphModel.checkError = [] ↔
      ∀ e ∈ c.edges, (c.edgeEnds e).isSome := by
    have hsome : ∀ r, GraphModel.checkError r = none ↔ r.toOption.isSome := by
      rintro (e | x) <;> simp [GraphModel.checkError, Except.toOption]
    simp only [filterMap_eq_nil_iff, hsome]
    have hmap := checkedEdges_toOption hn
    constructor
    · intro h e he
      have : c.edgeEnds e ∈ c.toModel.checkedEdges.map Except.toOption := hmap ▸ mem_map_of_mem he
      obtain ⟨r, hr, heq⟩ := mem_map.mp this
      exact heq ▸ h r hr
    · intro h r hr
      have : r.toOption ∈ c.edges.map c.edgeEnds := hmap ▸ mem_map_of_mem hr
      obtain ⟨e, he, heq⟩ := mem_map.mp this
      exact heq ▸ h e he
  simp only [GraphModel.validate, append_eq_nil_iff, hnames, hends, toModel_oversubscribed hn,
    Option.toList_eq_nil_iff, Option.map_eq_none_iff, findCycle_eq_none_iff hn, and_assoc]

theorem validate_eq_nil_iff (loopbackIp : String → Option Bool) :
    c.validate loopbackIp = [] ↔ c.Valid loopbackIp := by
  simp only [validate, append_eq_nil_iff, nodesErrors_eq_nil_iff, edgesErrors_eq_nil_iff]
  constructor
  · rintro ⟨⟨⟨hfields, hn, -⟩, hmux, hheld, -⟩, hmodel⟩
    obtain ⟨hlegal, hends, htargets, hacyclic⟩ := (toModel_validate_eq_nil_iff hn).mp hmodel
    exact ⟨hn, hfields, hlegal, hends, hmux, hheld, htargets, hacyclic⟩
  · rintro ⟨hn, hfields, hlegal, hends, hmux, hheld, htargets, hacyclic⟩
    exact ⟨⟨⟨hfields, hn, by simp⟩, hmux, hheld, by simp⟩,
      (toModel_validate_eq_nil_iff hn).mpr ⟨hlegal, hends, htargets, hacyclic⟩⟩

instance (loopbackIp : String → Option Bool) : Decidable (c.Valid loopbackIp) :=
  decidable_of_iff _ (validate_eq_nil_iff loopbackIp)

structure Restricts (c' c : GraphConfig) : Prop where
  nodes : c'.nodes.Sublist c.nodes
  edges : c'.edges.Sublist c.edges
  used : ∀ e ∈ c'.edges, e.a.node ∈ c'.names ∧ e.b.node ∈ c'.names

variable {c' : GraphConfig}

theorem Restricts.names (h : Restricts c' c) : c'.names.Sublist c.names := h.nodes.map _

theorem Restricts.nodeNamed (h : Restricts c' c) (hn : c.names.Nodup) {name : String}
    (hmem : name ∈ c'.names) : c'.nodeNamed name = c.nodeNamed name := by
  obtain ⟨n, hn'⟩ := Option.isSome_iff_exists.mp (nodeNamed_isSome_iff.mpr hmem)
  have := (nodeNamed_eq_some_iff (hn.sublist h.names)).mp hn'
  rw [hn', (nodeNamed_eq_some_iff hn).mpr ⟨h.nodes.subset this.1, this.2⟩]

theorem endpointFacing_congr {addr : EndpointAddr}
    (h : c'.nodeNamed addr.node = c.nodeNamed addr.node) :
    c'.endpointFacing addr = c.endpointFacing addr := by
  rw [endpointFacing, endpointFacing, h]

theorem edge_congr {e : EdgeConfig} (ha : c'.nodeNamed e.a.node = c.nodeNamed e.a.node)
    (hb : c'.nodeNamed e.b.node = c.nodeNamed e.b.node) :
    c'.edgeEnds e = c.edgeEnds e ∧ c'.effectiveWriteMode e = c.effectiveWriteMode e ∧
      c'.heldHost e = c.heldHost e ∧ (c'.MuxHeld e ↔ c.MuxHeld e) := by
  have hends : c'.edgeEnds e = c.edgeEnds e := by
    rw [edgeEnds, edgeEnds, endpointFacing_congr ha, endpointFacing_congr hb]
  cases he : c.edgeEnds e with
  | none =>
    rw [he] at hends
    simp [effectiveWriteMode, heldHost, MuxHeld, he, hends]
  | some x =>
    obtain ⟨host, target⟩ := x
    obtain ⟨-, -, hcase⟩ := edgeEnds_cases he
    have hnode : c'.nodeNamed host.node = c.nodeNamed host.node ∧
        c'.nodeNamed target.node = c.nodeNamed target.node := by
      rcases hcase with ⟨rfl, rfl⟩ | ⟨rfl, rfl⟩
      · exact ⟨ha, hb⟩
      · exact ⟨hb, ha⟩
    rw [he] at hends
    simp [effectiveWriteMode, heldHost, MuxHeld, holdsHost, isMultiplexedEndpoint,
      endpointArbitrates, he, hends, hnode]

theorem Restricts.edge_congr (h : Restricts c' c) (hn : c.names.Nodup) {e : EdgeConfig}
    (he : e ∈ c'.edges) :
    c'.edgeEnds e = c.edgeEnds e ∧ c'.effectiveWriteMode e = c.effectiveWriteMode e ∧
      c'.heldHost e = c.heldHost e ∧ (c'.MuxHeld e ↔ c.MuxHeld e) :=
  GraphConfig.edge_congr (h.nodeNamed hn (h.used e he).1) (h.nodeNamed hn (h.used e he).2)

theorem Restricts.ends (h : Restricts c' c) (hn : c.names.Nodup) : c'.ends.Sublist c.ends := by
  rw [GraphConfig.ends, filterMap_congr fun e he => (h.edge_congr hn he).1]
  exact h.edges.filterMap c.edgeEnds

theorem Valid.restrict {loopbackIp : String → Option Bool} (hv : c.Valid loopbackIp)
    (h : Restricts c' c) : c'.Valid loopbackIp where
  names := hv.names.sublist h.names
  fields n hn := hv.fields n (h.nodes.subset hn)
  legal n hn := hv.legal n (h.nodes.subset hn)
  ends e he := by
    rw [(h.edge_congr hv.names he).1]
    exact hv.ends e (h.edges.subset he)
  mux e he := (h.edge_congr hv.names he).2.2.2.mpr (hv.mux e (h.edges.subset he))
  held := by
    rw [filterMap_congr fun e he => (h.edge_congr hv.names he).2.2.1]
    exact hv.held.sublist (h.edges.filterMap c.heldHost)
  targets := hv.targets.sublist ((h.ends hv.names).map _)
  acyclic := hv.acyclic.mono fun v =>
    ((((h.ends hv.names).map _).filter _).map _).subset

variable {loopbackIp : String → Option Bool}

variable {addr : EndpointAddr} {f : Facing}

theorem Valid.endpointFacing_eq_some_iff (hv : c.Valid loopbackIp) :
    c.endpointFacing addr = some f ↔
      ∃ n ∈ c.nodes, ∃ ep ∈ n.shape.endpoints, addr = ⟨n.name, ep.name⟩ ∧ ep.facing = f := by
  unfold endpointFacing NodeShape.endpoint
  simp only [Option.bind_eq_bind, Option.bind_eq_some_iff, nodeNamed_eq_some_iff hv.names,
    Option.pure_def, Option.some.injEq]
  constructor
  · rintro ⟨n, ⟨hn, hname⟩, ep, hep, hf⟩
    have hkey : ep.name = addr.endpoint := by simpa using find?_some hep
    exact ⟨n, hn, ep, mem_of_find?_eq_some hep, by rw [hname, hkey], hf⟩
  · rintro ⟨n, hn, ep, hep, rfl, hf⟩
    obtain ⟨-, -, -, hnd⟩ := (nameErrors_eq_nil_iff _ _).mp (hv.legal n hn)
    exact ⟨n, ⟨hn, rfl⟩, ep, (Keyed.find?_eq_some_iff EndpointSpec.name hnd).mpr ⟨hep, rfl⟩, hf⟩

theorem Valid.legalName (hv : c.Valid loopbackIp) {name : String} (h : name ∈ c.names) :
    LegalName name := by
  obtain ⟨n, hn, rfl⟩ := mem_map.mp h
  exact ((nameErrors_eq_nil_iff _ _).mp (hv.legal n hn)).2.1

theorem Valid.noSlash (hv : c.Valid loopbackIp) (h : c.endpointFacing addr = some f) :
    '/' ∉ addr.node.toList :=
  (hv.legalName (mem_names_of_endpointFacing h)).noSlash

theorem Valid.display_injective (hv : c.Valid loopbackIp) {a b : EndpointAddr} {g : Facing}
    (ha : c.endpointFacing a = some f) (hb : c.endpointFacing b = some g)
    (h : a.display = b.display) : a = b :=
  EndpointAddr.display_inj (hv.noSlash ha) (hv.noSlash hb) h

end GraphConfig
end SerialNexus
