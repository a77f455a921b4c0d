import SerialNexus.DaemonVerbs
import SerialNexus.DaemonWiring

/-! # The runtime wiring mirrors the configuration

`Coherent` is the invariant of the daemon's graph state: the configuration is valid and the fabric
realises its plan (`Realised`).

The one condition is on the ids: edges are numbered from zero, `send`s from `sendOriginBase`, and a
run may be long enough for them to meet (`collision_not_mirrored`). -/

namespace SerialNexus

open List
open EndpointAddr (display parse)

namespace GraphConfig

variable {c c' : GraphConfig} {loopbackIp : String → Option Bool}

theorem Valid.readable (hv : c.Valid loopbackIp) {a : EndpointAddr} (ha : c.plan.Has a) :
    parse a.display = a := by
  obtain ⟨_, ha⟩ := plan_has ha
  exact EndpointAddr.parse_display (hv.noSlash ha)

variable {e : EdgeConfig}

theorem Restricts.linkOf (h : Restricts c' c) (hn : c.names.Nodup) (he : e ∈ c'.edges) :
    c'.linkOf e = c.linkOf e := by
  obtain ⟨hends, hmode, -, -⟩ := h.edge_congr hn he
  rw [GraphConfig.linkOf, GraphConfig.linkOf, hends, hmode]

theorem Valid.used (hv : c.Valid loopbackIp) (he : e ∈ c.edges) :
    e.a.node ∈ c.names ∧ e.b.node ∈ c.names := by
  obtain ⟨⟨host, target⟩, hx⟩ := Option.isSome_iff_exists.mp (hv.ends e he)
  obtain ⟨hhost, htarget, ⟨rfl, rfl⟩ | ⟨rfl, rfl⟩⟩ := edgeEnds_cases hx
  · exact ⟨mem_names_of_endpointFacing hhost, mem_names_of_endpointFacing htarget⟩
  · exact ⟨mem_names_of_endpointFacing htarget, mem_names_of_endpointFacing hhost⟩

theorem valid_empty : Valid {} loopbackIp := (validate_eq_nil_iff _).mp rfl

theorem plan_empty : GraphConfig.plan {} = Plan.none :=
  Plan.ext (funext fun _ => propext ⟨nofun, nofun⟩) (funext fun _ => propext ⟨nofun, nofun⟩) rfl

theorem Valid.plan_eraseIdx (hv : c.Valid loopbackIp) {i : ℕ} {l : Link} (hi : c.edges[i]? = some e)
    (hl : c.linkOf e = some l) :
    GraphConfig.plan { c with edges := c.edges.eraseIdx i } = c.plan.unlink l.target := by
  obtain ⟨hlt, hget⟩ := List.getElem?_eq_some_iff.mp hi
  have hsplit : c.edges = c.edges.take i ++ e :: c.edges.drop (i + 1) := by
    rw [← hget, List.getElem_cons_drop, take_append_drop]
  have hlinks : c.plan.links = (c.edges.take i).filterMap c.linkOf ++
      l :: (c.edges.drop (i + 1)).filterMap c.linkOf := by
    conv_lhs => rw [plan, hsplit]
    rw [filterMap_append, filterMap_cons_some hl]
  refine Plan.ext rfl rfl ?_
  have hnd := hv.plan_sound.nodup
  rw [Plan.targets, hlinks] at hnd
  rw [Plan.unlink, hlinks, Keyed.filter_ne_append_cons Link.target hnd]
  change (c.edges.eraseIdx i).filterMap c.linkOf = _
  rw [eraseIdx_eq_take_drop_succ, filterMap_append]

def alone (n : NodeConfig) : GraphConfig := { nodes := [n], edges := [] }

section append

variable {n : NodeConfig}

theorem Valid.restricts_append (hv : c.Valid loopbackIp) :
    Restricts c { c with nodes := c.nodes ++ [n] } where
  nodes := List.sublist_append_left _ _
  edges := List.Sublist.refl _
  used _ he := hv.used he

theorem restricts_alone : Restricts (alone n) { c with nodes := c.nodes ++ [n] } where
  nodes := List.sublist_append_right _ _
  edges := nil_sublist _
  used _ he := absurd he not_mem_nil

theorem Valid.plan_append (hv : c.Valid loopbackIp)
    (hv' : Valid { c with nodes := c.nodes ++ [n] } loopbackIp) :
    GraphConfig.plan { c with nodes := c.nodes ++ [n] } = c.plan.union (alone n).plan := by
  have hfacing : ∀ a f, endpointFacing { c with nodes := c.nodes ++ [n] } a = some f ↔
      c.endpointFacing a = some f ∨ (alone n).endpointFacing a = some f := by
    intro a f
    rw [hv'.endpointFacing_eq_some_iff, hv.endpointFacing_eq_some_iff,
      (hv'.restrict restricts_alone).endpointFacing_eq_some_iff]
    simp only [mem_append, or_and_right, exists_or, alone]
  refine Plan.ext (funext fun a => propext (hfacing a .host))
    (funext fun a => propext (hfacing a .target)) ?_
  have hlinks : (alone n).plan.links = [] := rfl
  rw [Plan.union, hlinks, append_nil]
  exact filterMap_congr fun e he => (hv.restricts_append.linkOf hv'.names he).symm

theorem Valid.disjoint_alone (hv' : Valid { c with nodes := c.nodes ++ [n] } loopbackIp)
    (a : EndpointAddr) (ha : c.plan.Has a) : ¬ (alone n).plan.Has a := by
  intro hn
  obtain ⟨_, ha⟩ := plan_has ha
  obtain ⟨_, hn⟩ := plan_has hn
  have hnames := hv'.names
  rw [GraphConfig.names, map_append] at hnames
  exact (nodup_append.mp hnames).2.2 _ (mem_names_of_endpointFacing ha) _
    (mem_names_of_endpointFacing hn) rfl

end append

def removed (c : GraphConfig) (name : String) : GraphConfig where
  nodes := c.nodes.filter (·.name ≠ name)
  edges := c.edges.filter fun e => e.a.node ≠ name ∧ e.b.node ≠ name

theorem Valid.restricts_removed (hv : c.Valid loopbackIp) (name : String) :
    Restricts (c.removed name) c where
  nodes := filter_sublist
  edges := filter_sublist
  used e he := by
    obtain ⟨hmem, hne⟩ := mem_filter.mp he
    obtain ⟨ha, hb⟩ := hv.used hmem
    have hkeep : ∀ m ∈ c.names, m ≠ name → m ∈ (c.removed name).names := by
      intro m hm hmne
      obtain ⟨n, hn, rfl⟩ := mem_map.mp hm
      exact mem_map_of_mem (mem_filter.mpr ⟨hn, by simpa using hmne⟩)
    have hne : e.a.node ≠ name ∧ e.b.node ≠ name := by simpa using hne
    exact ⟨hkeep _ ha hne.1, hkeep _ hb hne.2⟩

theorem touches_linkOf {e : EdgeConfig} {l : Link} (h : c.linkOf e = some l) (name : String) :
    GraphState.touches name e = l.touches name := by
  obtain ⟨-, -, ⟨hh, ht⟩ | ⟨hh, ht⟩⟩ := edgeEnds_cases (linkOf_eq_some h).1
  · rw [GraphState.touches, Link.touches, hh, ht]
  · rw [GraphState.touches, Link.touches, hh, ht, Bool.or_comm]

theorem Valid.plan_removed (hv : c.Valid loopbackIp) (name : String) :
    (c.removed name).plan = (c.plan.isolate name).without name := by
  have hr := hv.restricts_removed name
  have hfacing : ∀ a f, (c.removed name).endpointFacing a = some f ↔
      c.endpointFacing a = some f ∧ a.node ≠ name := by
    intro a f
    rw [(hv.restrict hr).endpointFacing_eq_some_iff, hv.endpointFacing_eq_some_iff]
    constructor
    · rintro ⟨n, hn, ep, hep, rfl, hf⟩
      obtain ⟨hmem, hne⟩ := mem_filter.mp hn
      exact ⟨⟨n, hmem, ep, hep, rfl, hf⟩, by simpa using hne⟩
    · rintro ⟨⟨n, hn, ep, hep, rfl, hf⟩, hne⟩
      exact ⟨n, mem_filter.mpr ⟨hn, by simpa using hne⟩, ep, hep, rfl, hf⟩
  refine Plan.ext (funext fun a => propext (hfacing a .host))
    (funext fun a => propext (hfacing a .target)) ?_
  change (c.removed name).edges.filterMap (c.removed name).linkOf = _
  rw [filterMap_congr fun e he => hr.linkOf hv.names he]
  refine Keyed.filterMap_filter fun e _ l hl => ?_
  rw [← touches_linkOf hl name, GraphState.touches]
  simp

theorem cascaded_eq (name : String) :
    (c.edges.filter (GraphState.touches name)).filterMap c.edgeEnds =
      (c.plan.links.filter (Link.touches name)).map fun l => (l.host, l.target) := by
  have hends : c.edgeEnds = fun e => (c.linkOf e).map fun l => (l.host, l.target) := by
    funext e
    rw [GraphConfig.linkOf, Option.map_map]
    exact Option.map_id'.symm
  rw [hends, ← map_filterMap, Keyed.filterMap_filter fun e _ l hl => touches_linkOf hl name]
  rfl

end GraphConfig

namespace GraphState

structure Coherent (d : Daemon) (s : GraphState) : Prop where
  valid : s.config.Valid d.loopbackIp
  names : s.nodes.map Node.name = s.config.names
  realised : ∃ y, Realised s.config.plan y s.sends s.nextEdgeOrigin s.fabric
  sends_lt : ∀ x ∈ s.sends, x.2 < s.nextSendOrigin
  sends_nodup : s.sends.Nodup
  sends_ge : sendOriginBase ≤ s.nextSendOrigin

def IdsApart (d : Daemon) (s : GraphState) (a : DaemonStep) : Prop :=
  (step d s a).nextEdgeOrigin ≤ sendOriginBase ∧ s.nextSendOrigin ≤ (step d s a).nextSendOrigin

instance (d : Daemon) (s : GraphState) (a : DaemonStep) : Decidable (IdsApart d s a) :=
  inferInstanceAs (Decidable (_ ∧ _))

variable {d : Daemon} {s : GraphState}

theorem Coherent.initial : Coherent d initial where
  valid := GraphConfig.valid_empty
  names := rfl
  realised := by
    refine ⟨⟨fun _ => 0, fun _ => 0⟩, ?_⟩
    change Realised (GraphConfig.plan {}) _ [] 0 _
    rw [GraphConfig.plan_empty]
    exact Realised.empty (by simp) (by simp) (Nat.zero_le _) _
  sends_lt := by simp [GraphState.initial]
  sends_nodup := nodup_nil
  sends_ge := le_rfl

def Quiet (s s' : GraphState) : Prop :=
  ∃ uses : List (LockRef × LockUse), s' = uses.foldl (fun s u => s.withLock u.1 (·.apply u.2.op)) s

theorem Quiet.refl (s : GraphState) : Quiet s s := ⟨[], rfl⟩

theorem Quiet.trans {s' s'' : GraphState} (h : Quiet s s') (h' : Quiet s' s'') : Quiet s s'' := by
  obtain ⟨us, rfl⟩ := h
  obtain ⟨us', rfl⟩ := h'
  exact ⟨us ++ us', foldl_append.symm⟩

theorem Quiet.use (s : GraphState) (ref : LockRef) (use : LockUse) :
    Quiet s (s.withLock ref (·.apply use.op)) := ⟨[(ref, use)], rfl⟩

theorem Coherent.useLock (h : Coherent d s) (ref : LockRef) (use : LockUse) :
    Coherent d (s.withLock ref (·.apply use.op)) := by
  obtain ⟨y, hy⟩ := h.realised
  refine ⟨h.valid, h.names, ⟨y, hy.withCells fun r => ?_⟩, h.sends_lt, h.sends_nodup, h.sends_ge⟩
  by_cases hr : r = ref
  · subst hr
    simp [LockUse.apply_writeMode]
  · simp [hr]

theorem Coherent.quiet (h : Coherent d s) {s' : GraphState} (hq : Quiet s s') : Coherent d s' := by
  obtain ⟨uses, rfl⟩ := hq
  induction uses generalizing s with
  | nil => exact h
  | cons u uses ih => exact ih (h.useLock u.1 u.2)

theorem Coherent.withInbox (h : Coherent d s) (target : String)
    (change : Channel HostwardChannel → Channel HostwardChannel) :
    Coherent d (s.withInbox target change) := by
  obtain ⟨y, hy⟩ := h.realised
  exact ⟨h.valid, h.names, ⟨y, hy.withInbox target change⟩, h.sends_lt, h.sends_nodup, h.sends_ge⟩

theorem Coherent.teardown (h : Coherent d s) : Coherent d s.teardown := by
  obtain ⟨y, hy⟩ := h.realised
  refine ⟨GraphConfig.valid_empty, rfl, ⟨y, ?_⟩, h.sends_lt, h.sends_nodup, h.sends_ge⟩
  change Realised (GraphConfig.plan {}) _ _ _ _
  rw [GraphConfig.plan_empty]
  exact Realised.empty hy.sends_ge hy.sends_lt hy.apart y

theorem Coherent.created (h : Coherent d s) {config : GraphConfig} {nodes : List Node}
    (hv : config.Valid d.loopbackIp) (hnodes : d.instantiateAll config.nodes = .ok nodes)
    (hn : (s.created config nodes).nextEdgeOrigin ≤ sendOriginBase) :
    Coherent d (s.created config nodes) := by
  obtain ⟨y, hy⟩ := h.realised
  obtain ⟨z, hz⟩ := Wiring.build_wired hv s.fabric.cells hy.sends_lt
  have hempty : Realised .none y s.sends s.nextEdgeOrigin (.empty s.fabric.cells s.fabric.nextRef) :=
    Realised.empty hy.sends_ge hy.sends_lt hy.apart y
  have hplan : Plan.none.union config.plan = config.plan := by
    simp [Plan.union, Plan.none]
  have hall := hempty.absorb hz hv.plan_sound (fun a ha => hv.readable ha)
    (fun a ha => by simp [Plan.Has, Plan.none] at ha) (.inl rfl) hn
  rw [hplan] at hall
  exact ⟨hv, Daemon.instantiateAll_names hnodes, ⟨_, hall⟩, h.sends_lt, h.sends_nodup, h.sends_ge⟩

theorem Coherent.withNode (h : Coherent d s) {config : NodeConfig} {node : Node}
    (hv : GraphConfig.Valid { s.config with nodes := s.config.nodes ++ [config] } d.loopbackIp)
    (hname : node.name = config.name)
    (hn : (s.withNode config node).nextEdgeOrigin ≤ sendOriginBase) :
    Coherent d (s.withNode config node) := by
  obtain ⟨y, hy⟩ := h.realised
  have halone := hv.restrict GraphConfig.restricts_alone
  obtain ⟨z, hz⟩ := Wiring.build_wired halone s.fabric.cells hy.sends_lt
  have hall := hy.absorb hz halone.plan_sound (fun a ha => halone.readable ha) hv.disjoint_alone
    (.inr rfl) hn
  rw [← h.valid.plan_append hv] at hall
  refine ⟨hv, ?_, ⟨_, hall⟩, h.sends_lt, h.sends_nodup, h.sends_ge⟩
  change (s.nodes ++ [node]).map Node.name = (s.config.nodes ++ [config]).map NodeConfig.name
  rw [map_append, map_append, h.names, map_singleton, map_singleton, hname]
  rfl

variable {name : String} {y : Layout} {edge : EdgeConfig} {host target : EndpointAddr}
  {fanout : List AttachedSink} {inbox : Channel HostwardChannel} {slot : TargetEdge}
  {ambient : Ambient}

theorem Coherent.mem_endpointsOf (h : Coherent d s) (hname : name ∈ s.config.names)
    {a : EndpointAddr} (ha : s.config.plan.Has a) :
    a.display ∈ s.endpointsOf name ↔ a.node = name := by
  obtain ⟨n, hn⟩ := Option.isSome_iff_exists.mp (GraphConfig.nodeNamed_isSome_iff.mpr hname)
  obtain ⟨hmem, rfl⟩ := (GraphConfig.nodeNamed_eq_some_iff h.valid.names).mp hn
  obtain ⟨f, hf⟩ := GraphConfig.plan_has ha
  rw [endpointsOf, hn, Option.elim_some, mem_map]
  constructor
  · rintro ⟨ep, hep, hd⟩
    have hfep := h.valid.endpointFacing_eq_some_iff.mpr ⟨n, hmem, ep, hep, rfl, rfl⟩
    rw [← h.valid.display_injective hfep hf hd]
  · intro hnode
    obtain ⟨n', hn', ep, hep, rfl, -⟩ := h.valid.endpointFacing_eq_some_iff.mp hf
    have hsame := (GraphConfig.nodeNamed_eq_some_iff h.valid.names).mpr ⟨hn', hnode⟩
    rw [hn] at hsame
    cases hsame
    exact ⟨ep, hep, rfl⟩

theorem Coherent.cascaded (h : Coherent d s)
    (hy : Realised s.config.plan y s.sends s.nextEdgeOrigin s.fabric) (name : String) :
    Realised (s.config.plan.isolate name) y s.sends s.nextEdgeOrigin
      ((s.cascaded name).foldl (fun f ends => f.detach ends.1.display ends.2.display) s.fabric) := by
  have hsound := h.valid.plan_sound
  have hall := hy.detachAll (s.config.plan.links.filter (Link.touches name))
    (fun l hl => mem_of_mem_filter hl) (hsound.nodup.sublist (filter_sublist.map _))
  have hlinks : (s.config.plan.links.filter fun l => decide
      (l.target ∉ (s.config.plan.links.filter (Link.touches name)).map Link.target)) =
      s.config.plan.links.filter fun l => !l.touches name := by
    refine filter_congr fun l hl => Bool.eq_iff_iff.mpr ?_
    simp only [decide_eq_true_eq, mem_map, mem_filter, not_exists, not_and, and_imp,
      Bool.not_eq_eq_eq_not, Bool.not_true]
    constructor
    · intro hnot
      exact Bool.eq_false_iff.mpr fun ht => hnot l hl ht rfl
    · intro hf l' hl' ht' heq
      rw [hsound.link_ext hl hl' heq, hf] at ht'
      cases ht'
  rw [hlinks] at hall
  rw [GraphState.cascaded, GraphConfig.cascaded_eq, foldl_map]
  exact hall

theorem Coherent.withoutNode (h : Coherent d s) {idx : ℕ}
    (hidx : s.nodes.findIdx? (·.name = name) = some idx) : Coherent d (s.withoutNode name idx) := by
  obtain ⟨y, hy⟩ := h.realised
  obtain ⟨hlt, hnode, -⟩ := findIdx?_eq_some_iff_getElem.mp hidx
  have hnode : s.nodes[idx].name = name := by simpa using hnode
  have hname : name ∈ s.config.names := by
    rw [← h.names, ← hnode]
    exact mem_map_of_mem (List.getElem_mem hlt)
  have hdrop := (h.cascaded hy name).dropEndpoints
    (fun a ha => h.mem_endpointsOf hname ha) fun l hl => Plan.isolate_untouched hl
  rw [← h.valid.plan_removed name] at hdrop
  refine ⟨h.valid.restrict (h.valid.restricts_removed name), ?_, ⟨y, hdrop⟩, h.sends_lt,
    h.sends_nodup, h.sends_ge⟩
  have hget : s.config.names[idx]? = some name := by
    rw [← h.names, List.getElem?_map, List.getElem?_eq_getElem hlt, Option.map_some, hnode]
  rw [GraphConfig.names, List.getElem?_map] at hget
  obtain ⟨n, hn, hname'⟩ := Option.map_eq_some_iff.mp hget
  have hnodes : (s.config.removed name).nodes = s.config.nodes.eraseIdx idx := by
    rw [← Keyed.filter_ne_eq_eraseIdx NodeConfig.name h.valid.names hn, hname']
    rfl
  change (s.nodes.eraseIdx idx).map Node.name = (s.config.removed name).names
  have hold := h.names
  rw [GraphConfig.names] at hold ⊢
  rw [hnodes, eraseIdx_eq_take_drop_succ, eraseIdx_eq_take_drop_succ, map_append,
    map_append, map_take, map_take, map_drop, map_drop, hold]

def edgeLink (s : GraphState) (edge : EdgeConfig) (host target : EndpointAddr) : Link :=
  ⟨host, target, s.config.effectiveWriteMode edge⟩

theorem connected_fabric (hy : Realised s.config.plan y s.sends s.nextEdgeOrigin s.fabric)
    (ambient : Ambient) (hends : s.config.edgeEnds edge = some (host, target))
    (hroom : (s.attachment edge host target fanout inbox slot).1.inboxFull = false) :
    ∃ sink inbox' change, sink.target = target ∧
      (change = id ∨ ∃ bytes, change = (·.recordPurge s.nextEdgeOrigin bytes)) ∧
      (s.connected ambient edge host target (s.attachment edge host target fanout inbox slot)).2 =
        { s with
          fabric := (s.fabric.linked display (s.edgeLink edge host target) (y.lock host)
            s.nextEdgeOrigin (fanout ++ [sink]) inbox').withLock (y.lock host) change
          nextEdgeOrigin := s.nextEdgeOrigin + 1
          config := s.candidate edge } := by
  have hhost : s.config.plan.host host := (GraphConfig.edgeEnds_cases hends).1
  have hsent : (inbox.trySend ⟨s.nextEdgeOrigin, hostwardDepth s.config host.node⟩).1 ≠ .full := by
    intro hfull
    simp [attachment, Fabric.attach, attachEdge, hfull] at hroom
  have htx := Std.ExtTreeMap.mem_iff_isSome_getElem?.mp (hy.mapped.targetward.mem hhost)
  obtain ⟨-, hreg, hfabric⟩ := Fabric.attach_address display (l := s.edgeLink edge host target)
    fanout slot (hy.mapped.lockAt host hhost) htx hsent
  let channel : HostwardChannel := ⟨s.nextEdgeOrigin, hostwardDepth s.config host.node⟩
  let r := s.attachment edge host target fanout inbox slot
  let purged := s.purgeOf ambient target.node
  have hstate : (s.connected ambient edge host target r).2 =
      { s with
        fabric :=
          if r.1.granted ∧ purged > 0 then
            (r.2.address target.display r.1).withLock (y.lock host)
              (·.recordPurge s.nextEdgeOrigin purged)
          else r.2.address target.display r.1
        nextEdgeOrigin := s.nextEdgeOrigin + 1
        config := s.candidate edge } := by
    have hr : r.1.registered = some (y.lock host, s.nextEdgeOrigin) := hreg
    simp only [connected, finishConnect, hr]
    rfl
  have hlinked : r.2.address target.display r.1 = s.fabric.linked display
      (s.edgeLink edge host target) (y.lock host) s.nextEdgeOrigin
      (fanout ++ [⟨target, channel, s.fabric.targetCounters[target.display]?⟩])
      (inbox.trySend channel).2 := hfabric
  refine ⟨⟨target, channel, s.fabric.targetCounters[target.display]?⟩, (inbox.trySend channel).2,
    if r.1.granted ∧ purged > 0 then (·.recordPurge s.nextEdgeOrigin purged) else id, rfl, ?_, ?_⟩
  · split_ifs
    · exact .inr ⟨purged, rfl⟩
    · exact .inl rfl
  · rw [hstate, ← hlinked]
    split_ifs
    · rfl
    · rw [Fabric.withLock_id]

theorem candidate_plan (hends : s.config.edgeEnds edge = some (host, target)) :
    (s.candidate edge).plan = s.config.plan.link (s.edgeLink edge host target) :=
  GraphConfig.plan_push (by rw [GraphConfig.linkOf, hends]; rfl)

theorem candidate_free (hv : (s.candidate edge).Valid d.loopbackIp)
    (hends : s.config.edgeEnds edge = some (host, target)) : target ∉ s.config.plan.targets := by
  have hnd := hv.plan_sound.nodup
  rw [candidate_plan hends, Plan.targets_link] at hnd
  exact fun hmem => (nodup_append.mp hnd).2.2 _ hmem _ (mem_singleton_self _) rfl

theorem Coherent.connected (h : Coherent d s) (ambient : Ambient)
    (hv : (s.candidate edge).Valid d.loopbackIp)
    (hends : s.config.edgeEnds edge = some (host, target))
    (hfanout : s.fabric.hostFanout[host.display]? = some fanout)
    (hroom : (s.attachment edge host target fanout inbox slot).1.inboxFull = false)
    (hn : s.nextEdgeOrigin + 1 ≤ sendOriginBase) :
    Coherent d (s.connected ambient edge host target
      (s.attachment edge host target fanout inbox slot)).2 := by
  obtain ⟨y, hy⟩ := h.realised
  obtain ⟨sink, inbox', change, hsink, hchange, hstate⟩ := connected_fabric hy ambient hends hroom
  obtain ⟨hhost, htarget, -⟩ := GraphConfig.edgeEnds_cases hends
  have hfree := candidate_free hv hends
  have hlinked : Realised (s.candidate edge).plan (y.assign target s.nextEdgeOrigin) s.sends
      (s.nextEdgeOrigin + 1) (s.fabric.linked display (s.edgeLink edge host target) (y.lock host)
        s.nextEdgeOrigin (fanout ++ [sink]) inbox') := by
    rw [candidate_plan hends]
    exact hy.link (l := s.edgeLink edge host target) hhost htarget hfree hn hfanout
      (by rw [map_append, ← hsink]; rfl)
  have hquiet : ∀ l : EndpointLock, (change l).writeMode = l.writeMode := by
    rcases hchange with rfl | ⟨bytes, rfl⟩
    · exact fun l => rfl
    · exact fun l => LockUse.apply_writeMode l (.recordPurge s.nextEdgeOrigin bytes)
  rw [hstate]
  refine ⟨hv, h.names, ⟨_, hlinked.withCells fun r => ?_⟩, h.sends_lt, h.sends_nodup, h.sends_ge⟩
  by_cases hr : r = y.lock host
  · subst hr
    simp [hquiet]
  · simp [hr]

theorem Coherent.disconnected (h : Coherent d s) {index : ℕ} {e : EdgeConfig}
    (hi : s.config.edges[index]? = some e) (hends : s.config.edgeEnds e = some (host, target)) :
    Coherent d { s with
      fabric := s.fabric.detach host.display target.display
      config := { s.config with edges := s.config.edges.eraseIdx index } } := by
  obtain ⟨y, hy⟩ := h.realised
  have hlink : s.config.linkOf e = some ⟨host, target, s.config.effectiveWriteMode e⟩ := by
    rw [GraphConfig.linkOf, hends]
    rfl
  have hmem : (⟨host, target, s.config.effectiveWriteMode e⟩ : Link) ∈ s.config.plan.links :=
    mem_filterMap.mpr ⟨e, mem_of_getElem? hi, hlink⟩
  have hdetach := hy.detach hmem
  rw [← h.valid.plan_eraseIdx hi hlink] at hdetach
  have hr : GraphConfig.Restricts { s.config with edges := s.config.edges.eraseIdx index } s.config :=
    ⟨.refl _, eraseIdx_sublist _ _, fun _ he => h.valid.used (mem_of_mem_eraseIdx he)⟩
  exact ⟨h.valid.restrict hr, h.names, ⟨y, hdetach⟩, h.sends_lt, h.sends_nodup, h.sends_ge⟩

theorem purgeOnAcquire_quiet (ambient : Ambient) (s : GraphState) (ref : LockRef) (origin : String)
    (id : OriginId) : Quiet s (s.purgeOnAcquire ambient ref origin id) := by
  unfold purgeOnAcquire
  dsimp only
  split_ifs
  · exact Quiet.use s ref (.recordPurge id _)
  · exact Quiet.refl s

theorem renewLease_quiet (s : GraphState) (ref : LockRef) (id : OriginId) (leaseMs : Option ℕ) :
    Quiet s (s.renewLease ref id leaseMs) := by
  unfold renewLease
  split_ifs
  · exact Quiet.use s ref (.renew id)
  · exact Quiet.refl s

theorem lock_quiet (ambient : Ambient) (s : GraphState) (origin : String) (steal wait : Bool)
    (leaseMs : Option ℕ) : Quiet s (s.lock d ambient origin steal wait leaseMs).2 := by
  unfold GraphState.lock
  cases s.resolveOrigin origin with
  | none => exact Quiet.refl s
  | some x =>
    obtain ⟨ref, id⟩ := x
    have hsteal := Quiet.use s ref (.steal id)
    have hacquire := Quiet.use s ref (.acquire id)
    cases steal with
    | true =>
      dsimp only
      rw [if_pos rfl]
      split
      · exact hsteal
      · exact hsteal.trans (renewLease_quiet _ ref id leaseMs)
      · exact hsteal.trans (purgeOnAcquire_quiet ambient _ ref origin id)
    | false =>
      dsimp only
      rw [if_neg Bool.false_ne_true]
      split
      · exact hacquire.trans (purgeOnAcquire_quiet ambient _ ref origin id)
      · exact hacquire.trans (renewLease_quiet _ ref id leaseMs)
      · exact hacquire
      · exact hacquire
      · split_ifs
        · exact hacquire.trans (Quiet.use _ ref (.enqueue id))
        · exact hacquire

theorem unlock_quiet (s : GraphState) (origin : String) : Quiet s (s.unlock d origin).2 := by
  unfold GraphState.unlock
  cases s.resolveOrigin origin with
  | none => exact Quiet.refl s
  | some x => exact Quiet.use s x.1 (.release x.2)

theorem wrappingAdd_one_of_le {n : ℕ} (hpos : 0 < n) (h : n ≤ wrappingAdd n 1) :
    wrappingAdd n 1 = n + 1 := by
  have hlt := wrappingAdd_lt n 1
  by_cases hn : n + 1 < u64Size
  · exact wrappingAdd_of_lt hn
  · have heq : n + 1 = u64Size := by omega
    rw [wrappingAdd, heq, Nat.mod_self] at h
    omega

theorem send_cases (s : GraphState) (endpoint : String) (senderClosed : Bool) :
    (s.send d endpoint senderClosed).2 = s ∨
      ∃ ref, s.fabric.endpointLocks[endpoint]? = some ref ∧
        (s.send d endpoint senderClosed).2 =
          { s.withLock ref (·.register s.nextSendOrigin "send" .onDemand) with
            nextSendOrigin := wrappingAdd s.nextSendOrigin 1
            sends := s.sends ++ [(ref, s.nextSendOrigin)] } := by
  unfold GraphState.send
  cases s.fabric.endpointLocks[endpoint]? with
  | none => exact .inl rfl
  | some ref =>
    dsimp only
    split_ifs
    · exact .inl rfl
    · exact .inl rfl
    · exact .inr ⟨ref, rfl, rfl⟩

theorem Coherent.send (h : Coherent d s) (endpoint : String) (senderClosed : Bool)
    (hn : s.nextSendOrigin ≤ (s.send d endpoint senderClosed).2.nextSendOrigin) :
    Coherent d (s.send d endpoint senderClosed).2 := by
  rcases s.send_cases endpoint senderClosed with hsame | ⟨ref, href, hstate⟩
  · rw [hsame]
    exact h
  obtain ⟨y, hy⟩ := h.realised
  have hpos : 0 < s.nextSendOrigin := lt_of_lt_of_le (by decide) h.sends_ge
  rw [hstate] at hn ⊢
  have hnext := wrappingAdd_one_of_le hpos hn
  obtain ⟨a, ha, rfl⟩ := (hy.mapped.locks endpoint).mp
    (Std.ExtTreeMap.mem_iff_isSome_getElem?.mpr (by rw [href]; rfl))
  rw [hy.mapped.lockAt a ha, Option.some.injEq] at href
  subst href
  refine ⟨h.valid, h.names, ⟨y, hy.send h.sends_ge h.sends_lt ha _ _⟩, ?_, ?_, h.sends_ge.trans hn⟩
  · intro x hx
    change x.2 < wrappingAdd s.nextSendOrigin 1
    rw [hnext]
    rcases mem_append.mp hx with hx | hx
    · exact (h.sends_lt x hx).trans (Nat.lt_succ_self _)
    · rw [mem_singleton.mp hx]
      exact Nat.lt_succ_self _
  · refine h.sends_nodup.append (nodup_singleton _) (List.disjoint_singleton.mpr ?_)
    exact fun hmem => absurd (h.sends_lt _ hmem) (lt_irrefl _)

theorem Coherent.endSend (h : Coherent d s) (i : ℕ) : Coherent d (s.endSend i) := by
  unfold GraphState.endSend
  cases hi : s.sends[i]? with
  | none => exact h
  | some x =>
    obtain ⟨ref, id⟩ := x
    obtain ⟨y, hy⟩ := h.realised
    have hnd : (s.sends.map fun x => x).Nodup := by simpa using h.sends_nodup
    have hmem : ∀ x, x ∈ s.sends.eraseIdx i ↔ x ∈ s.sends ∧ x ≠ (ref, id) := by
      intro x
      rw [← Keyed.filter_ne_eq_eraseIdx (fun x => x) hnd hi, mem_filter]
      simp
    exact ⟨h.valid, h.names, ⟨y, hy.endSend (mem_of_getElem? hi) hmem⟩,
      fun x hx => h.sends_lt x (mem_of_mem_eraseIdx hx),
      h.sends_nodup.sublist (eraseIdx_sublist _ _), h.sends_ge⟩

/-! ### Runs -/

theorem Coherent.call (h : Coherent d s) (ambient : Ambient) (call : GraphCall)
    (hn : (s.call d ambient call).2.nextEdgeOrigin ≤ sendOriginBase) :
    Coherent d (s.call d ambient call).2 := by
  have hcalled := s.call_called d ambient call
  generalize s.call d ambient call = r at hcalled hn ⊢
  cases hcalled with
  | refused e => exact h
  | numbered e =>
    obtain ⟨y, hy⟩ := h.realised
    exact ⟨h.valid, h.names, ⟨y, hy.skip (Nat.le_succ _) hn⟩, h.sends_lt, h.sends_nodup, h.sends_ge⟩
  | loaded replace reply hv hnodes =>
    cases replace with
    | true => exact h.teardown.created hv hnodes hn
    | false => exact h.created hv hnodes hn
  | added reply hv hname => exact h.withNode hv hname hn
  | removed reply hidx => exact h.withoutNode hidx
  | connected hv hends hfanout hroom => exact h.connected ambient hv hends hfanout hroom hn
  | endless reply hi hends =>
    have hsome := h.valid.ends _ (mem_of_getElem? hi)
    rw [hends] at hsome
    cases hsome
  | disconnected reply hi hends => exact h.disconnected hi hends

theorem Coherent.step (h : Coherent d s) {a : DaemonStep} (ha : IdsApart d s a) :
    Coherent d (step d s a) := by
  cases a with
  | call ambient call => exact h.call ambient call ha.1
  | teardown => exact h.teardown
  | lock ambient origin steal wait leaseMs =>
    exact h.quiet (lock_quiet ambient s origin steal wait leaseMs)
  | unlock origin => exact h.quiet (unlock_quiet s origin)
  | send endpoint senderClosed => exact h.send endpoint senderClosed ha.2
  | endSend i => exact h.endSend i
  | useLock ref use => exact h.quiet (Quiet.use s ref use)
  | drain target => exact h.withInbox target _
  | hangUp target => exact h.withInbox target _

theorem Coherent.run (h : Coherent d s) {as : List DaemonStep}
    (has : (machine d).Each (IdsApart d) s as) : Coherent d ((machine d).run s as) :=
  Runs.Machine.invariant_of_each (fun _ _ hs _ ha => hs.step ha) h
    (Runs.Machine.legal_of_forall (fun _ _ _ => trivial) s) has

def Faces (s : GraphState) (facing : Facing) (k : String) : Prop :=
  ∃ a, s.config.endpointFacing a = some facing ∧ a.display = k

structure Mirrors (d : Daemon) (s : GraphState) : Prop where
  valid : s.config.validate d.loopbackIp = []
  hostKeys : ∀ k, (k ∈ s.fabric.endpointLocks ↔ s.Faces .host k) ∧
    (k ∈ s.fabric.endpointTargetward ↔ s.Faces .host k) ∧
    (k ∈ s.fabric.hostFanout ↔ s.Faces .host k)
  targetKeys : ∀ k, (k ∈ s.fabric.targetInbox ↔ s.Faces .target k) ∧
    (k ∈ s.fabric.targetCounters ↔ s.Faces .target k) ∧
    (k ∈ s.fabric.targetEdges ↔ s.Faces .target k)
  fanouts : ∀ a, s.config.endpointFacing a = some .host →
    s.fabric.hostFanout[a.display]?.map (·.map AttachedSink.target) =
      some ((s.config.ends.filter (·.1 = a)).map Prod.snd)
  attached : ∀ t slot, s.config.endpointFacing t = some .target →
    s.fabric.targetEdges[t.display]? = some slot →
      (slot.attached = true ↔ ∃ e ∈ s.config.edges, ∃ host, s.config.edgeEnds e = some (host, t))
  registered : ∀ e ∈ s.config.edges, ∀ host t, s.config.edgeEnds e = some (host, t) →
    ∃ slot ref i, s.fabric.targetEdges[t.display]? = some slot ∧ slot.registered = some (ref, i) ∧
      s.fabric.endpointLocks[host.display]? = some ref ∧
      (s.fabric.cells ref).lock.writeMode i = some (s.config.effectiveWriteMode e)
  origins : ∀ a ref, s.config.endpointFacing a = some .host →
    s.fabric.endpointLocks[a.display]? = some ref → ∀ i, i ∈ (s.fabric.cells ref).lock.origins ↔
      (∃ e ∈ s.config.edges, ∃ t slot, s.config.edgeEnds e = some (a, t) ∧
        s.fabric.targetEdges[t.display]? = some slot ∧ slot.registered = some (ref, i)) ∨
      (ref, i) ∈ s.sends
  addressable : ∀ e ∈ s.config.edges, ∀ host t, s.config.edgeEnds e = some (host, t) →
    s.fabric.originLocks[t.display]? = if s.config.effectiveWriteMode e = .never then none
      else s.fabric.targetEdges[t.display]?.bind TargetEdge.registered

theorem Coherent.mirrors (h : Coherent d s) : Mirrors d s := by
  obtain ⟨y, hy⟩ := h.realised
  have hm := hy.mapped
  have hlink : ∀ e ∈ s.config.edges, ∀ host t, s.config.edgeEnds e = some (host, t) →
      (⟨host, t, s.config.effectiveWriteMode e⟩ : Link) ∈ s.config.plan.links :=
    fun e he host t hends => GraphConfig.mem_plan_links.mpr ⟨e, he, hends, rfl⟩
  refine ⟨(GraphConfig.validate_eq_nil_iff _).mpr h.valid,
    fun k => ⟨hm.locks k, hm.targetward k, hm.fanouts k⟩,
    fun k => ⟨hm.inboxes k, hm.counters k, hm.slots k⟩, fun a ha => ?_, fun t slot ht hslot => ?_,
    fun e he host t hends => ?_, fun a ref ha href i => ?_, fun e he host t hends => ?_⟩
  · rw [hm.sinks a ha]
    rw [← GraphConfig.plan_links_ends, filter_map, map_map]
    rfl
  · have hedge : t ∈ s.config.plan.targets ↔
        ∃ e ∈ s.config.edges, ∃ host, s.config.edgeEnds e = some (host, t) := by
      constructor
      · intro hmem
        obtain ⟨l, hl, rfl⟩ := mem_map.mp hmem
        obtain ⟨e, he, hends, -⟩ := GraphConfig.mem_plan_links.mp hl
        exact ⟨e, he, l.host, hends⟩
      · rintro ⟨e, he, host, hends⟩
        exact mem_map.mpr ⟨_, hlink e he host t hends, rfl⟩
    rw [← hedge]
    by_cases hmem : t ∈ s.config.plan.targets
    · obtain ⟨l, hl, rfl⟩ := mem_map.mp hmem
      rw [hm.linked l hl, Option.some.injEq] at hslot
      rw [← hslot]
      exact iff_of_true rfl hmem
    · rw [hm.unlinked t ht hmem, Option.some.injEq] at hslot
      rw [← hslot]
      exact iff_of_false Bool.false_ne_true hmem
  · have hl := hlink e he host t hends
    exact ⟨_, y.lock host, y.id t, hm.linked _ hl, rfl, hm.lockAt host (hy.sound.host _ hl),
      hy.enrolled.mode _ hl⟩
  · rw [hm.lockAt a ha, Option.some.injEq] at href
    subst href
    rw [EndpointLock.mem_origins_iff]
    refine (hy.enrolled.registered a ha i).trans (or_congr_left ⟨?_, ?_⟩)
    · rintro ⟨l, hl, rfl, rfl⟩
      obtain ⟨e, he, hends, -⟩ := GraphConfig.mem_plan_links.mp hl
      exact ⟨e, he, l.target, _, hends, hm.linked l hl, rfl⟩
    · rintro ⟨e, he, t, slot, hends, hslot, hreg⟩
      have hl := hlink e he a t hends
      rw [hm.linked _ hl, Option.some.injEq] at hslot
      rw [← hslot, Option.some.injEq, Prod.mk.injEq] at hreg
      exact ⟨_, hl, rfl, hreg.2⟩
  · have hl := hlink e he host t hends
    have hslot := hm.linked _ hl
    rw [hm.addressable _ hl, hslot]
    rfl

/-- **The wiring mirrors the configuration after every run.** -/
theorem wiring_mirrors_config (d : Daemon) {as : List DaemonStep}
    (has : (machine d).Each (IdsApart d) initial as) : Mirrors d ((machine d).run initial as) :=
  (Coherent.initial.run has).mirrors

def plainDaemon : Daemon where
  loopbackIp _ := none
  debug s := s
  parseAttributes _ := .ok ()
  registry := ⟨[]⟩
  hasIdentitySource := true

def plainAmbient : Ambient where
  resolveInput := .ok
  currentPath _ := none
  honoursFlowControl _ _ := none
  backlog _ := 0
  undelivered _ := 0

def portAndLog : GraphConfig where
  nodes := [.serial { name := "s", device := "/dev/ttyS0" }, .log { name := "l" }]

def portToLog : EdgeConfig := { a := .ofNode "s", b := .ofNode "l" }

def loadStep : DaemonStep := .call plainAmbient (.load (.ok (portAndLog, false)))

def connectStep : DaemonStep := .call plainAmbient (.connect (.ok portToLog))

def disconnectStep : DaemonStep := .call plainAmbient (.disconnect (.ok portToLog))

theorem wiring_mirrors_removal :
    Mirrors plainDaemon ((machine plainDaemon).run initial
      [loadStep, connectStep, .send "s" false,
        .call plainAmbient (.removeNode (.ok ("s", true))), .endSend 0]) :=
  wiring_mirrors_config plainDaemon (by decide +kernel)

theorem connect_full (hvalid : d.structuralErrors ((s.candidate edge).validate d.loopbackIp) = none)
    (hends : s.config.edgeEnds edge = some (host, target))
    (hfanout : s.fabric.hostFanout[host.display]?.isSome)
    (hinbox : s.fabric.targetInbox[target.display]? = some inbox)
    (hslot : s.fabric.targetEdges[target.display]?.isSome) (hopen : inbox.isOpen = true)
    (hfull : ¬ inbox.queue.length < inbox.cap) :
    (s.connect d ambient edge).2 = { s with nextEdgeOrigin := s.nextEdgeOrigin + 1 } := by
  obtain ⟨fanout, hfanout⟩ := Option.isSome_iff_exists.mp hfanout
  obtain ⟨slot, hslot⟩ := Option.isSome_iff_exists.mp hslot
  have hends' : GraphConfig.edgeEnds { s.config with edges := s.config.edges ++ [edge] } edge =
    some (host, target) := hends
  have hrefused : (s.attachment edge host target fanout inbox slot).1.inboxFull = true := by
    simp [attachment, Fabric.attach, attachEdge, Channel.trySend_of_full hopen hfull]
  rw [candidate] at hvalid
  simp only [connect, hvalid, hends', hfanout, hinbox, hslot]
  have hsame : (s.attachment edge host target fanout inbox slot).2 = s.fabric :=
    Fabric.attach_full hfanout hinbox hslot hrefused
  refine (congrArg Prod.snd (if_pos hrefused)).trans ?_
  exact congrArg (fun f => { s with fabric := f, nextEdgeOrigin := s.nextEdgeOrigin + 1 }) hsame

theorem connect_full_run
    (hvalid : d.structuralErrors ((s.candidate edge).validate d.loopbackIp) = none)
    (hends : s.config.edgeEnds edge = some (host, target))
    (hfanout : s.fabric.hostFanout[host.display]?.isSome)
    (hinbox : s.fabric.targetInbox[target.display]? = some inbox)
    (hslot : s.fabric.targetEdges[target.display]?.isSome) (hopen : inbox.isOpen = true)
    (hfull : ¬ inbox.queue.length < inbox.cap) (n : ℕ) :
    (machine d).run s (List.replicate n (.call ambient (.connect (.ok edge)))) =
      { s with nextEdgeOrigin := s.nextEdgeOrigin + n } := by
  induction n generalizing s with
  | zero => rfl
  | succ n ih =>
    have hstep : (machine d).step s (.call ambient (.connect (.ok edge))) =
        { s with nextEdgeOrigin := s.nextEdgeOrigin + 1 } :=
      connect_full hvalid hends hfanout hinbox hslot hopen hfull
    have hrest := ih (s := { s with nextEdgeOrigin := s.nextEdgeOrigin + 1 }) hvalid hends hfanout
      hinbox hslot
    rw [replicate_succ, Runs.Machine.run_cons, hstep, hrest]
    simp only [Nat.add_assoc, Nat.add_comm 1 n]

def crowded : GraphState :=
  (machine plainDaemon).run initial
    (loadStep :: (List.replicate 4 [connectStep, disconnectStep]).flatten)

def refusals : List DaemonStep :=
  (loadStep :: (List.replicate 4 [connectStep, disconnectStep]).flatten) ++
    List.replicate (sendOriginBase - 4) connectStep

theorem run_refusals : (machine plainDaemon).run initial refusals =
    { crowded with nextEdgeOrigin := sendOriginBase } := by
  have hvalid : plainDaemon.structuralErrors
      ((crowded.candidate portToLog).validate plainDaemon.loopbackIp) = none := by decide +kernel
  have hends : crowded.config.edgeEnds portToLog = some (.ofNode "s", .ofNode "l") := by
    decide +kernel
  obtain ⟨inbox, hinbox⟩ := Option.isSome_iff_exists.mp
    (by decide +kernel : (crowded.fabric.targetInbox[(EndpointAddr.ofNode "l").display]?).isSome)
  have hcrowd : crowded.fabric.targetInbox[(EndpointAddr.ofNode "l").display]?.map
      (fun c => (c.isOpen, decide (c.queue.length < c.cap))) = some (true, false) := by
    decide +kernel
  rw [hinbox, Option.map_some, Option.some.injEq, Prod.mk.injEq, decide_eq_false_iff_not] at hcrowd
  have hfull : (machine plainDaemon).run crowded (List.replicate (sendOriginBase - 4) connectStep) =
      { crowded with nextEdgeOrigin := crowded.nextEdgeOrigin + (sendOriginBase - 4) } :=
    connect_full_run hvalid hends (by decide +kernel) hinbox (by decide +kernel) hcrowd.1 hcrowd.2 _
  have hnext : crowded.nextEdgeOrigin + (sendOriginBase - 4) = sendOriginBase := by decide +kernel
  rw [hnext] at hfull
  rw [refusals, Runs.Machine.run_append]
  exact hfull

def collision : List DaemonStep := refusals ++ [.drain "l", connectStep, .send "s" false]

def collided : GraphState :=
  (machine plainDaemon).run { crowded with nextEdgeOrigin := sendOriginBase }
    [.drain "l", connectStep, .send "s" false]

theorem collision_not_mirrored : ¬ Mirrors plainDaemon ((machine plainDaemon).run initial collision) := by
  rw [collision, Runs.Machine.run_append, run_refusals]
  change ¬ Mirrors plainDaemon collided
  intro hm
  obtain ⟨slot, ref, i, hslot, hreg, -, hmode⟩ := hm.registered portToLog (by decide +kernel)
    (.ofNode "s") (.ofNode "l") (by decide +kernel)
  have hheld : (collided.fabric.targetEdges[(EndpointAddr.ofNode "l").display]?.bind
      TargetEdge.registered).map (fun x => (collided.fabric.cells x.1).lock.writeMode x.2) =
      some (some .onDemand) := by decide +kernel
  have hnever : collided.config.effectiveWriteMode portToLog = .never := by decide +kernel
  rw [hslot, Option.bind_some, hreg, Option.map_some, hmode, hnever] at hheld
  cases hheld

end GraphState
end SerialNexus
