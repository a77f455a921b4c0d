import SerialNexus.ConfigGuarantee
import SerialNexus.WiringBuild

/-! # Lock holders after a load

A valid configuration has at most one `held` edge per exclusive endpoint, so who holds what does not
depend on the order of the edges (`Wiring.build_loaded`). -/

namespace SerialNexus

open List Function
open Std (ExtTreeMap)
open GraphConfig (mem_plan_links plan_links_ends linkOf muxedConsole)

def Plan.heldLink (p : Plan) (a : EndpointAddr) : Option Link :=
  p.links.find? fun l => l.host = a ∧ l.mode = .held

structure Settled (declared : Arbitration) (held : Option OriginId) (lock : EndpointLock) :
    Prop where
  arbitration : lock.arbitration = declared
  waiters : lock.waiters = []
  holder : lock.holder = if declared = .exclusive then held else none

def Holders (arbitration : EndpointAddr → Arbitration) (p : Plan) (y : Layout)
    (f : Fabric EndpointAddr) : Prop :=
  ∀ a, p.host a →
    Settled (arbitration a) ((p.heldLink a).map fun l => y.id l.target) (f.cells (y.lock a)).lock

def declaredArbitration (c : GraphConfig) (a : EndpointAddr) : Arbitration :=
  ((facings c)[a]?.map Prod.snd).getD default

theorem Settled.new (arbitration : Arbitration) : Settled arbitration none (.new arbitration) :=
  ⟨rfl, rfl, by simp [EndpointLock.new]⟩

def Fabric.Fresh (arbitration : EndpointAddr → Arbitration) (f : Fabric EndpointAddr) : Prop :=
  ∀ a r, f.endpointLocks[a]? = some r → r < f.nextRef ∧ (f.cells r).lock = .new (arbitration a)

variable {arbitration : EndpointAddr → Arbitration} {f : Fabric EndpointAddr}

theorem Fabric.Fresh.addEndpoint (h : f.Fresh arbitration) (a : EndpointAddr) (facing : Facing) :
    (f.addEndpoint a facing (arbitration a)).Fresh arbitration := by
  intro b r hr
  cases facing with
  | host =>
    change (f.endpointLocks.insert a f.nextRef)[b]? = some r at hr
    change r < f.nextRef + 1 ∧ (update f.cells f.nextRef _ r).lock = _
    by_cases hab : a = b
    · subst hab
      rw [ExtTreeMap.getElem?_insert_self, Option.some.injEq] at hr
      subst hr
      rw [update_self]
      exact ⟨Nat.lt_succ_self _, rfl⟩
    · rw [Keyed.getElem?_insert_ne hab] at hr
      obtain ⟨hlt, hlock⟩ := h b r hr
      rw [update_of_ne hlt.ne]
      exact ⟨hlt.trans (Nat.lt_succ_self _), hlock⟩
  | target =>
    obtain ⟨hlt, hlock⟩ := h b r hr
    exact ⟨hlt.trans (Nat.lt_succ_self _), hlock⟩

theorem Fabric.Fresh.addEndpoints {xs : List (EndpointAddr × Facing × Arbitration)}
    (hxs : ∀ x ∈ xs, x.2.2 = arbitration x.1) (h : f.Fresh arbitration) :
    (xs.foldl (fun f x => f.addEndpoint x.1 x.2.1 x.2.2) f).Fresh arbitration := by
  induction xs generalizing f with
  | nil => exact h
  | cons x xs ih =>
    rw [foldl_cons, hxs x mem_cons_self]
    exact ih (fun z hz => hxs z (mem_cons_of_mem _ hz)) (h.addEndpoint x.1 x.2.1)

theorem Wiring.endpoints_fresh (c : GraphConfig) (cells : LockRef → LockCell) (base : ℕ) :
    (Wiring.endpoints c cells base).Fresh (declaredArbitration c) := by
  refine Fabric.Fresh.addEndpoints (fun x hx => ?_) fun a r hr => ?_
  · rw [declaredArbitration, ExtTreeMap.mem_toList_iff_getElem?_eq_some.mp hx]
    rfl
  · rw [Fabric.empty, ExtTreeMap.getElem?_empty] at hr
    cases hr

theorem Settled.register {arbitration : Arbitration} {held : Option OriginId} {lock : EndpointLock}
    (h : Settled arbitration held lock) (i : OriginId) (label : String) (mode : WriteMode) :
    Settled arbitration (held.or (if mode = .held then some i else none))
      (lock.register i label mode) := by
  obtain ⟨rfl, hwaiters, hholder⟩ := h
  cases harb : lock.arbitration with
  | freeForAll =>
    rw [harb, if_neg (by decide)] at hholder
    have hreg : ¬ (mode = .held ∧ lock.arbitration = .exclusive ∧ lock.holder = none) := by
      simp [harb]
    rw [EndpointLock.register, if_neg hreg]
    exact ⟨harb, hwaiters, hholder⟩
  | exclusive =>
    rw [harb, if_pos rfl] at hholder
    by_cases hgrant : mode = .held ∧ lock.arbitration = .exclusive ∧ lock.holder = none
    · rw [EndpointLock.register, if_pos hgrant]
      refine ⟨harb, hwaiters, ?_⟩
      rw [if_pos rfl, ← hholder, hgrant.2.2, if_pos hgrant.1]
      rfl
    · rw [EndpointLock.register, if_neg hgrant]
      refine ⟨harb, hwaiters, ?_⟩
      rw [if_pos rfl]
      change lock.holder = _
      rw [hholder]
      cases held with
      | some j => rfl
      | none =>
        have hmode : mode ≠ .held := fun hmode => hgrant ⟨hmode, harb, hholder⟩
        rw [if_neg hmode]
        rfl

theorem Holders.wireEdge {c : GraphConfig} {loopbackIp : String → Option Bool}
    (hv : c.Valid loopbackIp) {cells : LockRef → LockCell} {base : ℕ}
    {sends : List (LockRef × OriginId)} {p : Plan} {y : Layout} {w : Wiring}
    (hw : Wired cells base sends p y w) {e : EdgeConfig} {l : Link} (he : c.linkOf e = some l)
    (hhost : p.host l.host) (htarget : p.target l.target) (hfree : l.target ∉ p.targets)
    (h : Holders arbitration p y w.fabric) :
    Holders arbitration (p.link l) (y.assign l.target w.nextOrigin)
      (Wiring.wireEdge c w e).fabric := by
  obtain ⟨fanout, sinks, inbox, -, -, hwire, -⟩ := hw.wireEdge_eq hv he hhost htarget hfree
  intro a ha
  have hheld : ((p.link l).heldLink a).map (fun l' => (y.assign l.target w.nextOrigin).id l'.target) =
      ((p.heldLink a).map fun l' => y.id l'.target).or
        (if l.host = a ∧ l.mode = .held then some w.nextOrigin else none) := by
    rw [Plan.heldLink, Plan.link, find?_append, Plan.heldLink]
    cases hf : p.links.find? fun l => l.host = a ∧ l.mode = .held with
    | some l' =>
      exact congrArg some (Layout.assign_id_of_mem (mem_of_find?_eq_some hf) hfree _)
    | none =>
      by_cases hl : l.host = a ∧ l.mode = .held
      · simp [hl, Layout.assign]
      · simp [hl]
  rw [hwire, hheld]
  change Settled _ _ (update w.fabric.cells (y.lock l.host) _ (y.lock a)).lock
  by_cases hal : l.host = a
  · subst hal
    rw [update_self]
    simpa using (h l.host ha).register w.nextOrigin l.target.display l.mode
  · have hne : y.lock a ≠ y.lock l.host := fun heq => hal (hw.enrolled.inj _ _ ha hhost heq).symm
    rw [update_of_ne hne]
    simpa [hal] using h a ha

def Layout.lockAt (y : Layout) (w : Wiring) (host : EndpointAddr) : EndpointLock :=
  (w.fabric.cells (y.lock host)).lock

structure Loaded (c : GraphConfig) (y : Layout) (w : Wiring) : Prop where
  locks : ∀ host, c.Faces host .host → w.fabric.endpointLocks[host]? = some (y.lock host)
  slots : ∀ e ∈ c.edges, ∀ host target, c.Joins e host target →
    ∃ slot, w.fabric.targetEdges[target]? = some slot ∧ slot.attached = true ∧
      slot.registered = some (y.lock host, y.id target)
  sinks : ∀ host, c.Faces host .host → w.fabric.hostFanout[host]?.map (·.map AttachedSink.target) =
    some ((c.ends.filter (·.1 = host)).map Prod.snd)
  ids_nodup : (c.ends.map fun x => y.id x.2).Nodup
  ids_lt : ∀ x ∈ c.ends, y.id x.2 < w.nextOrigin
  registered : ∀ host, c.Faces host .host → ∀ i,
    i ∈ (y.lockAt w host).origins ↔ ∃ x ∈ c.ends, x.1 = host ∧ y.id x.2 = i
  modes : ∀ e ∈ c.edges, ∀ host target, c.Joins e host target →
    (y.lockAt w host).writeMode (y.id target) = some (c.effectiveWriteMode e)
  arbitration : ∀ host, c.ExclusiveHost host → (y.lockAt w host).arbitration = .exclusive
  waiters : ∀ host, c.ExclusiveHost host → (y.lockAt w host).waiters = []
  holder : ∀ host, c.ExclusiveHost host → ∀ i, (y.lockAt w host).holder = some i ↔
    ∃ e ∈ c.edges, ∃ target, c.Joins e host target ∧ c.effectiveWriteMode e = .held ∧
      y.id target = i

namespace GraphConfig

variable {c : GraphConfig} {loopbackIp : String → Option Bool}

theorem Valid.endpoints_nodup (hv : c.Valid loopbackIp) (n : NodeConfig) (hn : n ∈ c.nodes) :
    (n.shape.endpoints.map EndpointSpec.name).Nodup :=
  ((nameErrors_eq_nil_iff _ _).mp (hv.legal n hn)).2.2.2

variable {host target a : EndpointAddr}

theorem Valid.joins_iff (hv : c.Valid loopbackIp) {e : EdgeConfig} :
    c.Joins e host target ↔ c.edgeEnds e = some (host, target) :=
  GraphConfig.joins_iff hv.names hv.endpoints_nodup

theorem Valid.faces_iff (hv : c.Valid loopbackIp) {f : Facing} :
    c.Faces a f ↔ c.endpointFacing a = some f :=
  GraphConfig.faces_iff hv.names hv.endpoints_nodup

theorem ExclusiveHost.faces (h : c.ExclusiveHost a) : c.Faces a .host :=
  h.imp fun _ h => ⟨h.1, h.2.1⟩

theorem Valid.declaredArbitration_eq (hv : c.Valid loopbackIp) (hex : c.ExclusiveHost a) :
    declaredArbitration c a = .exclusive := by
  obtain ⟨ep, ⟨n, hn, hname, hep, hkey⟩, -, harb⟩ := hex
  obtain rfl : a = ⟨n.name, ep.name⟩ := by rw [hname, hkey]
  have hmem : (⟨n.name, ep.name⟩, ep.facing, ep.arbitration) ∈ c.endpointList :=
    mem_flatMap.mpr ⟨n, hn, mem_map.mpr ⟨ep, hep, rfl⟩⟩
  have hfind := (Keyed.find?_eq_some_iff Prod.fst hv.endpointList_nodup).mpr ⟨hmem, rfl⟩
  have hget := Keyed.getElem?_foldl_insert Prod.fst Prod.snd hv.endpointList_nodup ∅
    (⟨n.name, ep.name⟩ : EndpointAddr)
  rw [hfind] at hget
  rw [declaredArbitration, facings_eq, hget]
  exact harb

theorem Valid.held_unique (hv : c.Valid loopbackIp) {e e' : EdgeConfig} (he : e ∈ c.edges)
    (he' : e' ∈ c.edges) {target' : EndpointAddr} (hex : c.ExclusiveHost host)
    (hj : c.Joins e host target) (hj' : c.Joins e' host target')
    (hheld : c.effectiveWriteMode e = .held) (hheld' : c.effectiveWriteMode e' = .held) :
    target = target' := by
  have hle := ((valid_iff_sound loopbackIp).mp hv).1.held host hex
  have hmem : ∀ e ∈ c.edges, ∀ target, c.Joins e host target → c.effectiveWriteMode e = .held →
      e ∈ (c.edgesAt host).filter fun e => c.effectiveWriteMode e = .held := by
    intro e he target hj hheld
    have hat : e.a = host ∨ e.b = host := hj.1.imp And.left And.right
    simp [edgesAt, he, hat, hheld]
  obtain ⟨x, hx⟩ := length_eq_one_iff.mp
    (le_antisymm hle (length_pos_of_mem (hmem e he target hj hheld)))
  have hex : ∀ e ∈ c.edges, ∀ target, c.Joins e host target → c.effectiveWriteMode e = .held →
      e = x := fun e he target hj hheld =>
    mem_singleton.mp (hx ▸ hmem e he target hj hheld)
  obtain rfl := hex e he target hj hheld
  obtain rfl := hex e' he' target' hj' hheld'
  have hends := hv.joins_iff.mp hj
  rw [hv.joins_iff.mp hj', Option.some.injEq, Prod.mk.injEq] at hends
  exact hends.2.symm

end GraphConfig

variable {c : GraphConfig} {e : EdgeConfig} {loopbackIp : String → Option Bool}

theorem Loaded.mayWrite_iff {y : Layout} {w : Wiring} (h : Loaded c y w) (he : e ∈ c.edges)
    {host target : EndpointAddr} (hj : c.Joins e host target) (hex : c.ExclusiveHost host) :
    (y.lockAt w host).mayWrite (y.id target) = true ↔ c.effectiveWriteMode e = .held := by
  have hmode := h.modes e he host target hj
  have hholder : (y.lockAt w host).holder = some (y.id target) ↔
      c.effectiveWriteMode e = .held := by
    rw [h.holder host hex]
    constructor
    · rintro ⟨e', he', target', hj', hheld, hid⟩
      have hmode' := h.modes e' he' host target' hj'
      rw [hid, hmode, Option.some.injEq] at hmode'
      rw [hmode', hheld]
    · intro hheld
      exact ⟨e, he, target, hj, hheld, rfl⟩
  rw [EndpointLock.writeMode, Option.map_eq_some_iff] at hmode
  obtain ⟨o, ho, hmode⟩ := hmode
  simp only [EndpointLock.mayWrite, ho, h.arbitration host hex, hmode, hholder]
  split_ifs with hnever
  · simp [hnever]
  · rw [decide_eq_true_eq]

theorem Wiring.build_loaded (hv : c.Valid loopbackIp) (cells : LockRef → LockCell) (base : ℕ) :
    ∃ y, Loaded c y (Wiring.build c cells base) := by
  have hstart : ∀ y, Building cells base [] { c.plan with links := [] } y
      (Wiring.endpoints c cells base) →
      Holders (declaredArbitration c) { c.plan with links := [] } y
        (Wiring.endpoints c cells base) := by
    intro y hy a ha
    obtain ⟨-, hlock⟩ := Wiring.endpoints_fresh c cells base a (y.lock a) (hy.mapped.lockAt a ha)
    rw [hlock]
    exact Settled.new _
  obtain ⟨y, hw, hh⟩ := Wiring.wired_of_prefix hv cells (forall_mem_nil _)
    (prefix_refl c.edges) (Q := fun p y w => Holders (declaredArbitration c) p y w.fabric)
    hstart fun p y w e l hw he hhost htarget hfree h => h.wireEdge hv hw he hhost htarget hfree
  change Wired cells base [] c.plan y (Wiring.build c cells base) at hw
  change Holders (declaredArbitration c) c.plan y (Wiring.build c cells base).fabric at hh
  have hlink : ∀ e ∈ c.edges, ∀ host target, c.Joins e host target →
      (⟨host, target, c.effectiveWriteMode e⟩ : Link) ∈ c.plan.links := fun e he host target hj =>
    mem_plan_links.mpr ⟨e, he, hv.joins_iff.mp hj, rfl⟩
  have hsettled : ∀ host, c.ExclusiveHost host →
      Settled .exclusive ((c.plan.heldLink host).map fun l => y.id l.target)
        (y.lockAt (Wiring.build c cells base) host) := by
    intro host hex
    rw [← hv.declaredArbitration_eq hex]
    exact hh host (hv.faces_iff.mp hex.faces)
  refine ⟨y, ⟨fun host hhost => ?_, fun e he host target hj => ?_, fun host hhost => ?_, ?_, ?_,
    fun host hhost i => ?_, fun e he host target hj => ?_, fun host hex => (hsettled host hex).arbitration,
    fun host hex => (hsettled host hex).waiters, fun host hex i => ?_⟩⟩
  · exact hw.mapped.lockAt host (hv.faces_iff.mp hhost)
  · exact ⟨_, hw.mapped.linked _ (hlink e he host target hj), rfl, rfl⟩
  · rw [← plan_links_ends, filter_map, map_map]
    exact hw.mapped.sinks host (hv.faces_iff.mp hhost)
  · rw [← plan_links_ends, map_map]
    exact hw.ids_nodup
  · rw [← plan_links_ends]
    intro x hx
    obtain ⟨l, hl, rfl⟩ := mem_map.mp hx
    exact hw.ids_lt l hl
  · have hreg : ((y.lockAt (Wiring.build c cells base) host).writeMode i).isSome ↔ _ :=
      hw.enrolled.registered host (hv.faces_iff.mp hhost) i
    rw [EndpointLock.mem_origins_iff, ← plan_links_ends]
    simpa using hreg
  · exact hw.enrolled.mode _ (hlink e he host target hj)
  · have hholder := (hsettled host hex).holder
    rw [if_pos rfl] at hholder
    rw [hholder, Option.map_eq_some_iff]
    constructor
    · rintro ⟨l, hl, rfl⟩
      have hmatch := find?_some hl
      obtain ⟨e, he, hends, hmode⟩ := mem_plan_links.mp (mem_of_find?_eq_some hl)
      rw [decide_eq_true_eq] at hmatch
      obtain ⟨rfl, hheld⟩ := hmatch
      exact ⟨e, he, l.target, hv.joins_iff.mpr hends, hmode.trans hheld, rfl⟩
    · rintro ⟨e, he, target, hj, hheld, rfl⟩
      have hsome : (c.plan.heldLink host).isSome := by
        rw [Plan.heldLink, find?_isSome]
        exact ⟨_, hlink e he host target hj, by simp [hheld]⟩
      obtain ⟨l, hl⟩ := Option.isSome_iff_exists.mp hsome
      have hmatch := find?_some hl
      obtain ⟨e', he', hends, hmode⟩ := mem_plan_links.mp (mem_of_find?_eq_some hl)
      rw [decide_eq_true_eq] at hmatch
      obtain ⟨rfl, hheld'⟩ := hmatch
      refine ⟨l, hl, congrArg y.id ?_⟩
      exact hv.held_unique he' he hex (hv.joins_iff.mpr hends) hj (hmode.trans hheld') hheld

theorem Wiring.attach_accepted (hv : c.Valid loopbackIp) (cells : LockRef → LockCell) (base : ℕ)
    {es : List EdgeConfig} (hes : es ++ [e] <+: c.edges) :
    ∃ r, Wiring.attachOutcome c
        (es.foldl (Wiring.wireEdge c) ⟨Wiring.endpoints c cells base, 0⟩) e = some r ∧
      r.inboxFull = false := by
  obtain ⟨y, hw, -⟩ := Wiring.wired_of_prefix hv cells (forall_mem_nil _)
    ((prefix_append es [e]).trans hes) (Q := fun _ _ _ => True) (fun _ _ => trivial)
    fun _ _ _ _ _ _ _ _ _ _ _ => trivial
  obtain ⟨⟨host, target⟩, hx⟩ := Option.isSome_iff_exists.mp
    (hv.ends e (hes.subset (mem_append_right _ mem_cons_self)))
  have he : c.linkOf e = some ⟨host, target, c.effectiveWriteMode e⟩ := by
    rw [linkOf, hx]
    rfl
  have hnodup : ((es ++ [e]).filterMap c.linkOf).map Link.target |>.Nodup :=
    hv.plan_sound.nodup.sublist ((hes.filterMap c.linkOf).sublist.map _)
  rw [filterMap_append, map_append, filterMap_cons_some he, nodup_append_comm] at hnodup
  obtain ⟨hh, ht, -⟩ := GraphConfig.edgeEnds_cases hx
  obtain ⟨-, -, -, -, -, -, r, hr, hnotFull, -⟩ := hw.wireEdge_eq hv he hh ht
    (nodup_cons.mp hnodup).1
  exact ⟨r, hr, hnotFull⟩

theorem holders_follow_config {c : GraphConfig} {loopbackIp : String → Option Bool}
    (hc : c.validate loopbackIp = []) (cells : LockRef → LockCell) (base : ℕ) :
    (∀ es e, es ++ [e] <+: c.edges → ∃ r, Wiring.attachOutcome c
        (es.foldl (Wiring.wireEdge c) ⟨Wiring.endpoints c cells base, 0⟩) e = some r ∧
      r.inboxFull = false) ∧
    ∃ y, Loaded c y (Wiring.build c cells base) ∧
      ∀ e ∈ c.edges, ∀ host target, c.Joins e host target → c.ExclusiveHost host →
        ((y.lockAt (Wiring.build c cells base) host).mayWrite (y.id target) = true ↔
          c.effectiveWriteMode e = .held) := by
  have hv := (GraphConfig.validate_eq_nil_iff loopbackIp).mp hc
  obtain ⟨y, hy⟩ := Wiring.build_loaded hv cells base
  exact ⟨fun es e hes => Wiring.attach_accepted hv cells base hes, y, hy,
    fun e he host target hj hex => hy.mayWrite_iff he hj hex⟩

theorem holders_follow_muxedConsole :
    ∃ y, Loaded muxedConsole y
      (Wiring.build muxedConsole (fun _ => ⟨.new .exclusive, false⟩) 0) := by
  have hc : muxedConsole.validate (fun _ => none) = [] := by decide +kernel
  obtain ⟨-, y, hy, -⟩ := holders_follow_config hc (fun _ => ⟨.new .exclusive, false⟩) 0
  exact ⟨y, hy⟩

end SerialNexus
