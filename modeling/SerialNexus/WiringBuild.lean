import SerialNexus.ConfigValid
import SerialNexus.WiringPlan

/-! # Building the wiring of a configuration

A configuration has a plan (`GraphConfig.plan`), and `Wiring::build` realises it,
whatever locks of earlier graphs are still in use. -/

namespace SerialNexus

open List Function
open Std (ExtTreeMap)

namespace GraphConfig

variable (c : GraphConfig)

def linkOf (edge : EdgeConfig) : Option Link :=
  (c.edgeEnds edge).map fun x => ⟨x.1, x.2, c.effectiveWriteMode edge⟩

def plan : Plan where
  host a := c.endpointFacing a = some .host
  target a := c.endpointFacing a = some .target
  links := c.edges.filterMap c.linkOf

variable {c} {loopbackIp : String → Option Bool}

theorem plan_has {a : EndpointAddr} (h : c.plan.Has a) : ∃ f, c.endpointFacing a = some f :=
  h.elim (fun h => ⟨_, h⟩) fun h => ⟨_, h⟩

variable {e : EdgeConfig} {l : Link}

theorem linkOf_eq_some (h : c.linkOf e = some l) :
    c.edgeEnds e = some (l.host, l.target) ∧ l.mode = c.effectiveWriteMode e := by
  obtain ⟨⟨host, target⟩, hx, rfl⟩ := Option.map_eq_some_iff.mp h
  exact ⟨hx, rfl⟩

theorem plan_links_ends : c.plan.links.map (fun l => (l.host, l.target)) = c.ends := by
  simp only [plan, ends, map_filterMap]
  refine filterMap_congr fun e _ => ?_
  rw [linkOf, Option.map_map]
  exact Option.map_id_apply

theorem mem_plan_links {l : Link} : l ∈ c.plan.links ↔
    ∃ e ∈ c.edges, c.edgeEnds e = some (l.host, l.target) ∧ c.effectiveWriteMode e = l.mode := by
  constructor
  · intro hl
    obtain ⟨e, he, hle⟩ := mem_filterMap.mp hl
    obtain ⟨hends, hmode⟩ := linkOf_eq_some hle
    exact ⟨e, he, hends, hmode.symm⟩
  · rintro ⟨e, he, hends, hmode⟩
    refine mem_filterMap.mpr ⟨e, he, ?_⟩
    rw [linkOf, hends, hmode]
    rfl

theorem plan_targets : c.plan.targets = c.ends.map Prod.snd := by
  rw [← plan_links_ends, map_map]
  rfl

theorem Valid.plan_sound (hv : c.Valid loopbackIp) : c.plan.Sound where
  host l hl := by
    obtain ⟨e, -, he⟩ := mem_filterMap.mp hl
    exact (edgeEnds_cases (linkOf_eq_some he).1).1
  target l hl := by
    obtain ⟨e, -, he⟩ := mem_filterMap.mp hl
    exact (edgeEnds_cases (linkOf_eq_some he).1).2.1
  nodup := plan_targets ▸ hv.targets

theorem plan_push (h : c.linkOf e = some l) :
    GraphConfig.plan { c with edges := c.edges ++ [e] } = c.plan.link l := by
  have hlink : GraphConfig.linkOf { c with edges := c.edges ++ [e] } = c.linkOf := rfl
  refine Plan.ext rfl rfl ?_
  change (c.edges ++ [e]).filterMap _ = _
  rw [hlink, filterMap_append]
  simp [h, Plan.link, plan]


variable (c : GraphConfig)

def endpointList : List (EndpointAddr × Facing × Arbitration) :=
  c.nodes.flatMap fun n => n.shape.endpoints.map fun ep =>
    (⟨n.name, ep.name⟩, ep.facing, ep.arbitration)

theorem facings_eq : facings c = c.endpointList.foldl (fun m x => m.insert x.1 x.2) ∅ := by
  simp only [facings, endpointList, foldl_flatMap, foldl_map]

variable {c} {loopbackIp : String → Option Bool}

theorem Valid.endpointList_nodup (hv : c.Valid loopbackIp) :
    (c.endpointList.map Prod.fst).Nodup := by
  rw [endpointList, map_flatMap, nodup_flatMap]
  constructor
  · intro n hn
    obtain ⟨-, -, -, hnd⟩ := (nameErrors_eq_nil_iff _ _).mp (hv.legal n hn)
    rw [map_map]
    refine List.Nodup.of_map EndpointAddr.endpoint ?_
    rw [map_map]
    exact hnd
  · have hnames : c.nodes.Pairwise fun n m => n.name ≠ m.name := List.pairwise_map.mp hv.names
    refine hnames.imp fun {n m} hne => ?_
    intro a ha hb
    simp only [map_map, mem_map, Function.comp_apply] at ha hb
    obtain ⟨_, -, rfl⟩ := ha
    obtain ⟨_, -, hb⟩ := hb
    exact hne (congrArg EndpointAddr.node hb).symm

theorem Valid.facings_eq_some_iff (hv : c.Valid loopbackIp) {a : EndpointAddr} {f : Facing} :
    (facings c)[a]?.map Prod.fst = some f ↔ c.endpointFacing a = some f := by
  have hget : (facings c)[a]? = (c.endpointList.find? (·.1 = a)).map Prod.snd := by
    have := Keyed.getElem?_foldl_insert Prod.fst Prod.snd hv.endpointList_nodup ∅ a
    rw [facings_eq, this, ExtTreeMap.getElem?_empty, Option.or_none]
  rw [hget, hv.endpointFacing_eq_some_iff, Option.map_map, Option.map_eq_some_iff]
  constructor
  · rintro ⟨x, hx, rfl⟩
    obtain ⟨hmem, rfl⟩ := (Keyed.find?_eq_some_iff Prod.fst hv.endpointList_nodup).mp hx
    obtain ⟨n, hn, hx⟩ := mem_flatMap.mp hmem
    obtain ⟨ep, hep, rfl⟩ := mem_map.mp hx
    exact ⟨n, hn, ep, hep, rfl, rfl⟩
  · rintro ⟨n, hn, ep, hep, rfl, rfl⟩
    refine ⟨(⟨n.name, ep.name⟩, ep.facing, ep.arbitration), ?_, rfl⟩
    exact (Keyed.find?_eq_some_iff Prod.fst hv.endpointList_nodup).mpr
      ⟨mem_flatMap.mpr ⟨n, hn, mem_map.mpr ⟨ep, hep, rfl⟩⟩, rfl⟩

theorem Valid.facings_edgeEnds (hv : c.Valid loopbackIp) (e : EdgeConfig) :
    Wiring.edgeEnds (facings c) e = c.edgeEnds e := by
  have hf : ∀ a, (facings c)[a]?.map Prod.fst = c.endpointFacing a := fun a =>
    Option.ext fun f => hv.facings_eq_some_iff
  rw [Wiring.edgeEnds, hf, hf]
  rfl

end GraphConfig

namespace Plan

def add (p : Plan) (a : EndpointAddr) (facing : Facing) : Plan where
  host b := p.host b ∨ (b = a ∧ facing = .host)
  target b := p.target b ∨ (b = a ∧ facing = .target)
  links := p.links

end Plan

structure Building (cells : LockRef → LockCell) (base : ℕ) (sends : List (LockRef × OriginId))
    (p : Plan) (y : Layout) (f : Fabric EndpointAddr) : Prop where
  mapped : Mapped id p y f
  enrolled : Enrolled p y sends f.modes
  low : ∀ a, p.host a → base ≤ y.lock a
  high : ∀ a, p.host a → y.lock a < f.nextRef
  grown : base ≤ f.nextRef
  old : ∀ r < base, f.cells r = cells r
  inbox : ∀ t, p.target t → t ∉ p.targets → f.targetInbox[t]? = some (.new edgeInboxCap)

section building

variable {cells : LockRef → LockCell} {base : ℕ} {sends : List (LockRef × OriginId)} {p : Plan}
  {y : Layout} {f : Fabric EndpointAddr}

def Layout.place (y : Layout) (a : EndpointAddr) (ref : LockRef) : Layout :=
  { y with lock := update y.lock a ref }

theorem Building.start (cells : LockRef → LockCell) (base : ℕ)
    (sends : List (LockRef × OriginId)) (y : Layout) :
    Building cells base sends .none y (.empty cells base) := by
  have hempty : ∀ {β : Type}, KeyedBy id (fun _ => False) (∅ : ExtTreeMap EndpointAddr β) := by
    intro β k
    simp
  refine ⟨⟨hempty, hempty, hempty, hempty, hempty, hempty, ?_, ?_, ?_, ?_, ?_, ?_⟩, ⟨?_, ?_, ?_⟩,
    ?_, ?_, le_rfl, fun _ _ => rfl, ?_⟩
  all_goals simp [Plan.none, Fabric.empty]

variable {a : EndpointAddr}

theorem Layout.place_lock_of_ne {b : EndpointAddr} (h : b ≠ a) (ref : LockRef) :
    (y.place a ref).lock b = y.lock b := update_of_ne h _ _

theorem Layout.place_lock_self (a : EndpointAddr) (ref : LockRef) :
    (y.place a ref).lock a = ref := update_self _ _ _

theorem Mapped.addEndpoint (h : Mapped id p y f) (hlinks : p.links = []) (ha : ¬ p.Has a)
    (facing : Facing) (arbitration : Arbitration) :
    Mapped id (p.add a facing) (y.place a f.nextRef) (f.addEndpoint a facing arbitration) := by
  have hne : ∀ b, p.host b → a ≠ b := fun b hb heq => ha (.inl (heq ▸ hb))
  have hnet : ∀ b, p.target b → a ≠ b := fun b hb heq => ha (.inr (heq ▸ hb))
  have hfree : ∀ t, t ∉ p.targets := by simp [Plan.targets, hlinks]
  have haddressed : ∀ k, k ∉ f.originLocks := by
    intro k hk
    obtain ⟨l, hl, -⟩ := h.addressed k hk
    rw [hlinks] at hl
    cases hl
  have hnew : ∀ {β : Type} {P : EndpointAddr → Prop} {m : ExtTreeMap EndpointAddr β} (v : β),
      KeyedBy id P m → KeyedBy id (fun b => P b ∨ b = a ∧ facing = facing) (m.insert a v) :=
    fun v hm => (hm.insert a v).congr (by simp)
  have hsame : ∀ {β : Type} {P : EndpointAddr → Prop} {m : ExtTreeMap EndpointAddr β}
      {g : Facing}, facing ≠ g → KeyedBy id P m →
      KeyedBy id (fun b => P b ∨ b = a ∧ facing = g) m :=
    fun hg hm => hm.congr (by simp [hg])
  cases facing with
  | host =>
    refine ⟨hnew _ h.locks, hnew _ h.targetward, hnew _ h.fanouts,
      hsame (by decide) h.inboxes, hsame (by decide) h.counters, hsame (by decide) h.slots,
      ?_, ?_, by simp [Plan.add, hlinks], ?_, by simp [Plan.add, hlinks],
      fun k hk => absurd hk (haddressed k)⟩
    · rintro b (hb | ⟨rfl, -⟩)
      · simp only [Fabric.addEndpoint, id, Keyed.getElem?_insert_ne (hne b hb),
          Layout.place_lock_of_ne (hne b hb).symm]
        exact h.lockAt b hb
      · simp [Fabric.addEndpoint, Layout.place_lock_self]
    · rintro b (hb | ⟨rfl, -⟩)
      · simp only [Fabric.addEndpoint, id, Keyed.getElem?_insert_ne (hne b hb)]
        exact h.sinks b hb
      · simp [Fabric.addEndpoint, Plan.add, hlinks]
    · rintro t (ht | ⟨-, ht⟩) -
      · exact h.unlinked t ht (hfree t)
      · cases ht
  | target =>
    refine ⟨hsame (by decide) h.locks, hsame (by decide) h.targetward,
      hsame (by decide) h.fanouts, hnew _ h.inboxes, hnew _ h.counters, hnew _ h.slots,
      ?_, ?_, by simp [Plan.add, hlinks], ?_, by simp [Plan.add, hlinks],
      fun k hk => absurd hk (haddressed k)⟩
    · rintro b (hb | ⟨-, hb⟩)
      · rw [Layout.place_lock_of_ne (hne b hb).symm]
        exact h.lockAt b hb
      · cases hb
    · rintro b (hb | ⟨-, hb⟩)
      · exact h.sinks b hb
      · cases hb
    · rintro t (ht | ⟨rfl, -⟩) -
      · simp only [Fabric.addEndpoint, id, Keyed.getElem?_insert_ne (hnet t ht)]
        exact h.unlinked t ht (hfree t)
      · simp [Fabric.addEndpoint]

theorem Enrolled.add {modes modes' : LockRef → OriginId → Option WriteMode}
    (h : Enrolled p y sends modes) (hlinks : p.links = []) (ha : ¬ p.Has a) {facing : Facing}
    {ref : LockRef} (hfresh : ∀ b, p.host b → y.lock b ≠ ref) (hsends : ∀ i, (ref, i) ∉ sends)
    (hsame : ∀ r ≠ ref, modes' r = modes r) (hnew : facing = .host → ∀ i, modes' ref i = none) :
    Enrolled (p.add a facing) (y.place a ref) sends modes' := by
  have hne : ∀ b, p.host b → b ≠ a := fun b hb heq => ha (.inl (heq ▸ hb))
  refine ⟨?_, by simp [Plan.add, hlinks], ?_⟩
  · rintro b c (hb | ⟨rfl, -⟩) (hc | ⟨rfl, -⟩) heq
    · rw [Layout.place_lock_of_ne (hne b hb), Layout.place_lock_of_ne (hne c hc)] at heq
      exact h.inj b c hb hc heq
    · rw [Layout.place_lock_of_ne (hne b hb), Layout.place_lock_self] at heq
      exact absurd heq (hfresh b hb)
    · rw [Layout.place_lock_of_ne (hne c hc), Layout.place_lock_self] at heq
      exact absurd heq.symm (hfresh c hc)
    · rfl
  · rintro b (hb | ⟨rfl, hf⟩) i
    · rw [Layout.place_lock_of_ne (hne b hb), hsame _ (hfresh b hb)]
      simpa [Plan.add, hlinks] using h.registered b hb i
    · simp [Layout.place_lock_self, hnew hf i, Plan.add, hlinks, hsends i]

theorem Building.addEndpoint (h : Building cells base sends p y f)
    (hsends : ∀ x ∈ sends, x.1 < base) (hlinks : p.links = []) (ha : ¬ p.Has a) (facing : Facing)
    (arbitration : Arbitration) :
    Building cells base sends (p.add a facing) (y.place a f.nextRef)
      (f.addEndpoint a facing arbitration) := by
  have hgrown := h.grown
  have hne : ∀ b, p.host b → b ≠ a := fun b hb heq => ha (.inl (heq ▸ hb))
  have hnet : ∀ b, p.target b → a ≠ b := fun b hb heq => ha (.inr (heq ▸ hb))
  have hfree : ∀ t, t ∉ p.targets := by simp [Plan.targets, hlinks]
  have hnext : (f.addEndpoint a facing arbitration).nextRef = f.nextRef + 1 := by
    cases facing <;> rfl
  have hcells : ∀ r ≠ f.nextRef, (f.addEndpoint a facing arbitration).cells r = f.cells r := by
    intro r hr
    cases facing with
    | host => exact update_of_ne hr _ _
    | target => rfl
  refine ⟨h.mapped.addEndpoint hlinks ha facing arbitration, ?_, ?_, ?_, by omega, ?_, ?_⟩
  · refine h.enrolled.add hlinks ha (fun b hb => (h.high b hb).ne)
      (fun i hi => absurd (hsends _ hi) (by simpa using hgrown)) ?_ ?_
    · intro r hr
      funext i
      rw [Fabric.modes, hcells r hr]
      rfl
    · rintro rfl i
      simp [Fabric.modes, Fabric.addEndpoint, EndpointLock.new, EndpointLock.writeMode]
  · rintro b (hb | ⟨rfl, -⟩)
    · rw [Layout.place_lock_of_ne (hne b hb)]
      exact h.low b hb
    · rw [Layout.place_lock_self]
      exact hgrown
  · rw [hnext]
    rintro b (hb | ⟨rfl, -⟩)
    · rw [Layout.place_lock_of_ne (hne b hb)]
      exact (h.high b hb).trans (Nat.lt_succ_self _)
    · rw [Layout.place_lock_self]
      exact Nat.lt_succ_self _
  · intro r hr
    rw [hcells r (by omega)]
    exact h.old r hr
  · rintro t (ht | ⟨rfl, hf⟩) -
    · have hold := h.inbox t ht (hfree t)
      cases facing with
      | host => exact hold
      | target =>
        rw [← hold]
        exact Keyed.getElem?_insert_ne (hnet t ht) _
    · subst hf
      simp [Fabric.addEndpoint]

theorem Building.addEndpoints (h : Building cells base sends p y f)
    (hsends : ∀ x ∈ sends, x.1 < base) (hlinks : p.links = [])
    {xs : List (EndpointAddr × Facing × Arbitration)} (hnd : (xs.map Prod.fst).Nodup)
    (hnew : ∀ x ∈ xs, ¬ p.Has x.1) :
    ∃ p' y', Building cells base sends p' y'
        (xs.foldl (fun f x => f.addEndpoint x.1 x.2.1 x.2.2) f) ∧ p'.links = [] ∧
      (∀ a, p'.host a ↔ p.host a ∨ ∃ x ∈ xs, x.1 = a ∧ x.2.1 = .host) ∧
      ∀ a, p'.target a ↔ p.target a ∨ ∃ x ∈ xs, x.1 = a ∧ x.2.1 = .target := by
  induction xs generalizing p y f with
  | nil => exact ⟨p, y, h, hlinks, by simp, by simp⟩
  | cons x xs ih =>
    obtain ⟨hx, hnd⟩ := nodup_cons.mp hnd
    have hnew' : ∀ z ∈ xs, ¬ (p.add x.1 x.2.1).Has z.1 := by
      intro z hz hhas
      have hzx : z.1 ≠ x.1 := fun heq => hx (heq ▸ mem_map_of_mem hz)
      refine hnew z (mem_cons_of_mem _ hz) (hhas.imp ?_ ?_) <;>
        exact fun h => h.resolve_right fun h => hzx h.1
    obtain ⟨p', y', hb, hl, hhost, htarget⟩ := ih
      (h.addEndpoint hsends hlinks (hnew x mem_cons_self) x.2.1 x.2.2) hlinks hnd hnew'
    refine ⟨p', y', hb, hl, fun a => ?_, fun a => ?_⟩
    · rw [hhost]
      simp [Plan.add, or_assoc, eq_comm]
    · rw [htarget]
      simp [Plan.add, or_assoc, eq_comm]

end building

theorem Wiring.endpoints_building {c : GraphConfig} {loopbackIp : String → Option Bool}
    (hv : c.Valid loopbackIp) (cells : LockRef → LockCell) {base : ℕ}
    {sends : List (LockRef × OriginId)} (hsends : ∀ x ∈ sends, x.1 < base) :
    ∃ y, Building cells base sends { c.plan with links := [] } y
      (Wiring.endpoints c cells base) := by
  have hnd : ((facings c).toList.map Prod.fst).Nodup := by
    rw [ExtTreeMap.map_fst_toList_eq_keys]
    exact ExtTreeMap.nodup_keys
  obtain ⟨p, y, hb, hl, hhost, htarget⟩ :=
    (Building.start cells base sends ⟨fun _ => 0, fun _ => 0⟩).addEndpoints hsends rfl hnd
      fun _ _ => by simp [Plan.Has, Plan.none]
  have hmem : ∀ a f, (∃ x ∈ (facings c).toList, x.1 = a ∧ x.2.1 = f) ↔
      c.endpointFacing a = some f := by
    intro a f
    rw [← hv.facings_eq_some_iff, Option.map_eq_some_iff]
    constructor
    · rintro ⟨x, hx, rfl, rfl⟩
      exact ⟨x.2, ExtTreeMap.mem_toList_iff_getElem?_eq_some.mp hx, rfl⟩
    · rintro ⟨v, hv, rfl⟩
      exact ⟨(a, v), ExtTreeMap.mem_toList_iff_getElem?_eq_some.mpr hv, rfl, rfl⟩
  have hp : p = { c.plan with links := [] } := by
    refine Plan.ext (funext fun a => propext ?_) (funext fun a => propext ?_) hl
    · rw [hhost, hmem]
      simp [Plan.none, GraphConfig.plan]
    · rw [htarget, hmem]
      simp [Plan.none, GraphConfig.plan]
  exact ⟨y, hp ▸ hb⟩

structure Wired (cells : LockRef → LockCell) (base : ℕ) (sends : List (LockRef × OriginId))
    (p : Plan) (y : Layout) (w : Wiring) : Prop extends Building cells base sends p y w.fabric where
  ids_lt : ∀ l ∈ p.links, y.id l.target < w.nextOrigin
  ids_nodup : (p.links.map fun l => y.id l.target).Nodup

section edges

variable {cells : LockRef → LockCell} {base : ℕ} {sends : List (LockRef × OriginId)} {p : Plan}
  {y : Layout} {w : Wiring} {c : GraphConfig} {loopbackIp : String → Option Bool}

variable {l : Link} {e : EdgeConfig}

theorem Layout.assign_ids (hfree : l.target ∉ p.targets) {n : ℕ}
    (hlt : ∀ l' ∈ p.links, y.id l'.target < n) (hnd : (p.links.map fun l => y.id l.target).Nodup) :
    (∀ l' ∈ (p.link l).links, (y.assign l.target n).id l'.target < n + 1) ∧
      ((p.link l).links.map fun l' => (y.assign l.target n).id l'.target).Nodup := by
  have hold : (p.links.map fun l' => (y.assign l.target n).id l'.target) =
      p.links.map fun l' => y.id l'.target :=
    map_congr_left fun l' hl' => Layout.assign_id_of_mem hl' hfree n
  have hself : (y.assign l.target n).id l.target = n := update_self _ _ _
  constructor
  · intro l' hl'
    rcases mem_append.mp hl' with hl' | hl'
    · rw [Layout.assign_id_of_mem hl' hfree]
      exact (hlt l' hl').trans (Nat.lt_succ_self n)
    · rw [mem_singleton.mp hl', hself]
      exact Nat.lt_succ_self n
  · simp only [Plan.link, map_append, hold, map_cons, map_nil, hself]
    refine nodup_append.mpr ⟨hnd, nodup_singleton _, ?_⟩
    rintro a ha b hb rfl
    obtain ⟨l', hl', hid⟩ := mem_map.mp ha
    exact absurd (hlt l' hl') (not_lt.mpr (hid.trans (mem_singleton.mp hb)).ge)

theorem Building.link {f : Fabric EndpointAddr} (h : Building cells base sends p y f) (hs : p.Sound)
    (hhost : p.host l.host) (htarget : p.target l.target) (hfree : l.target ∉ p.targets)
    {i : OriginId} (hi : f.modes (y.lock l.host) i = none) {sinks fanout : List AttachedSink}
    {inbox : Channel HostwardChannel} (hfanout : f.hostFanout[id l.host]? = some fanout)
    (hsinks : sinks.map AttachedSink.target = fanout.map AttachedSink.target ++ [l.target]) :
    Building cells base sends (p.link l) (y.assign l.target i)
      (f.linked id l (y.lock l.host) i sinks inbox) := by
  refine ⟨h.mapped.link hs (fun _ _ _ _ => id) hhost htarget hfree hfanout hsinks, ?_, h.low, h.high,
    h.grown, fun r hr => ?_, fun t ht htfree => ?_⟩
  · rw [Fabric.linked_modes]
    exact h.enrolled.link hhost hfree hi
  · have hlow := h.low l.host hhost
    rw [← h.old r hr]
    exact update_of_ne (hr.trans_le hlow).ne _ _
  · rw [Plan.targets_link, mem_append, not_or] at htfree
    have hne : l.target ≠ t := by simpa [eq_comm] using htfree.2
    rw [← h.inbox t ht htfree.1]
    exact Keyed.getElem?_insert_ne hne _

def Wiring.attachOutcome (c : GraphConfig) (w : Wiring) (edge : EdgeConfig) :
    Option AttachOutcome :=
  (Wiring.attachAt c w edge).map (·.2.1)

theorem Wired.wireEdge_eq (h : Wired cells base sends p y w) (hv : c.Valid loopbackIp)
    (he : c.linkOf e = some l) (hhost : p.host l.host) (htarget : p.target l.target)
    (hfree : l.target ∉ p.targets) :
    ∃ fanout sinks inbox, w.fabric.hostFanout[id l.host]? = some fanout ∧
      sinks.map AttachedSink.target = fanout.map AttachedSink.target ++ [l.target] ∧
      Wiring.wireEdge c w e =
        ⟨w.fabric.linked id l (y.lock l.host) w.nextOrigin sinks inbox, w.nextOrigin + 1⟩ ∧
      ∃ r, Wiring.attachOutcome c w e = some r ∧ r.inboxFull = false ∧
        r.registered = some (y.lock l.host, w.nextOrigin) := by
  obtain ⟨hends, hmode⟩ := GraphConfig.linkOf_eq_some he
  obtain ⟨fanout, hfanout⟩ := Option.isSome_iff_exists.mp
    (ExtTreeMap.mem_iff_isSome_getElem?.mp (h.mapped.fanouts.mem hhost))
  have hinbox := h.inbox l.target htarget hfree
  have hslot := h.mapped.unlinked l.target htarget hfree
  have hlock := h.mapped.lockAt l.host hhost
  have htx := ExtTreeMap.mem_iff_isSome_getElem?.mp (h.mapped.targetward.mem hhost)
  let channel : HostwardChannel := ⟨w.nextOrigin, hostwardDepth c l.host.node⟩
  have hroom : ((Channel.new edgeInboxCap).trySend channel).1 ≠ .full := by
    simp [Channel.trySend, Channel.new, edgeInboxCap]
  obtain ⟨hnotFull, hregistered, hfabric⟩ := Fabric.attach_address id fanout {} hlock htx hroom
  refine ⟨fanout, fanout ++ [⟨l.target, channel, w.fabric.targetCounters[id l.target]?⟩],
    ((Channel.new edgeInboxCap).trySend channel).2, hfanout, by simp, ?_, ?_⟩
  all_goals
    simp only [id] at hfanout hslot hnotFull hregistered hfabric hinbox
    simp only [Wiring.wireEdge, Wiring.attachOutcome, Wiring.attachAt, hv.facings_edgeEnds, hends,
      hfanout, hinbox, hslot, ← hmode]
  · rw [hfabric]
    rfl
  · exact ⟨_, rfl, hnotFull, hregistered⟩

theorem Wired.wireEdge (h : Wired cells base sends p y w) (hv : c.Valid loopbackIp)
    (hsends : ∀ x ∈ sends, x.1 < base) (hs : p.Sound) (he : c.linkOf e = some l)
    (hhost : p.host l.host) (htarget : p.target l.target) (hfree : l.target ∉ p.targets) :
    Wired cells base sends (p.link l) (y.assign l.target w.nextOrigin) (Wiring.wireEdge c w e) := by
  have hfresh : w.fabric.modes (y.lock l.host) w.nextOrigin = none := by
    rw [← Option.not_isSome_iff_eq_none, h.enrolled.registered l.host hhost]
    rintro (⟨l', hl', -, hid⟩ | hmem)
    · exact absurd (h.ids_lt l' hl') (not_lt.mpr hid.ge)
    · exact absurd (hsends _ hmem) (not_lt.mpr (h.low l.host hhost))
  obtain ⟨fanout, sinks, inbox, hfanout, hsinks, hwire, -⟩ := h.wireEdge_eq hv he hhost htarget hfree
  have hids := Layout.assign_ids hfree h.ids_lt h.ids_nodup
  rw [hwire]
  exact ⟨h.toBuilding.link hs hhost htarget hfree hfresh hfanout hsinks, hids.1, hids.2⟩

theorem Wired.wireEdges (h : Wired cells base sends p y w) (hv : c.Valid loopbackIp)
    (hsends : ∀ x ∈ sends, x.1 < base) (hs : p.Sound) {es : List EdgeConfig}
    (hhost : ∀ l ∈ es.filterMap c.linkOf, p.host l.host)
    (htarget : ∀ l ∈ es.filterMap c.linkOf, p.target l.target)
    (hfree : (p.targets ++ (es.filterMap c.linkOf).map Link.target).Nodup)
    {Q : Plan → Layout → Wiring → Prop} (hQ : Q p y w)
    (hstep : ∀ p y w e l, Wired cells base sends p y w → c.linkOf e = some l → p.host l.host →
      p.target l.target → l.target ∉ p.targets → Q p y w →
      Q (p.link l) (y.assign l.target w.nextOrigin) (Wiring.wireEdge c w e)) :
    ∃ y', Wired cells base sends { p with links := p.links ++ es.filterMap c.linkOf } y'
        (es.foldl (Wiring.wireEdge c) w) ∧
      Q { p with links := p.links ++ es.filterMap c.linkOf } y'
        (es.foldl (Wiring.wireEdge c) w) := by
  induction es generalizing p y w with
  | nil => exact ⟨y, by simpa using h, by simpa using hQ⟩
  | cons e es ih =>
    cases he : c.linkOf e with
    | none =>
      have hskip : Wiring.wireEdge c w e = w := by
        rw [Wiring.wireEdge, Wiring.attachAt, hv.facings_edgeEnds, Option.map_eq_none_iff.mp he]
      simp only [filterMap_cons_none he] at hhost htarget hfree ⊢
      rw [foldl_cons, hskip]
      exact ih h hs hhost htarget hfree hQ
    | some l =>
      simp only [filterMap_cons_some he] at hhost htarget hfree ⊢
      rw [map_cons, append_cons] at hfree
      have hlfree : l.target ∉ p.targets := fun hmem =>
        (nodup_append.mp (nodup_append.mp hfree).1).2.2 _ hmem _
          (mem_singleton_self _) rfl
      have hlhost := hhost l mem_cons_self
      have hltarget := htarget l mem_cons_self
      obtain ⟨y', hy', hQ'⟩ := ih (h.wireEdge hv hsends hs he hlhost hltarget hlfree)
        (hs.link hlhost hltarget hlfree)
        (fun l' hl' => hhost l' (mem_cons_of_mem _ hl'))
        (fun l' hl' => htarget l' (mem_cons_of_mem _ hl')) (p.targets_link l ▸ hfree)
        (hstep p y w e l h he hlhost hltarget hlfree hQ)
      refine ⟨y', ?_⟩
      rw [append_cons]
      exact ⟨hy', hQ'⟩

end edges

variable {c : GraphConfig} {loopbackIp : String → Option Bool} {base : ℕ}
  {sends : List (LockRef × OriginId)}

theorem Wiring.wired_of_prefix (hv : c.Valid loopbackIp) (cells : LockRef → LockCell)
    (hsends : ∀ x ∈ sends, x.1 < base) {es : List EdgeConfig} (hes : es <+: c.edges)
    {Q : Plan → Layout → Wiring → Prop}
    (hstart : ∀ y, Building cells base sends { c.plan with links := [] } y
      (Wiring.endpoints c cells base) →
      Q { c.plan with links := [] } y ⟨Wiring.endpoints c cells base, 0⟩)
    (hstep : ∀ p y w e l, Wired cells base sends p y w → c.linkOf e = some l → p.host l.host →
      p.target l.target → l.target ∉ p.targets → Q p y w →
      Q (p.link l) (y.assign l.target w.nextOrigin) (Wiring.wireEdge c w e)) :
    ∃ y, Wired cells base sends { c.plan with links := es.filterMap c.linkOf } y
        (es.foldl (Wiring.wireEdge c) ⟨Wiring.endpoints c cells base, 0⟩) ∧
      Q { c.plan with links := es.filterMap c.linkOf } y
        (es.foldl (Wiring.wireEdge c) ⟨Wiring.endpoints c cells base, 0⟩) := by
  obtain ⟨y, hy⟩ := Wiring.endpoints_building hv cells hsends
  have hwired : Wired cells base sends { c.plan with links := [] } y
      ⟨Wiring.endpoints c cells base, 0⟩ := ⟨hy, by simp, by simp⟩
  have hs := hv.plan_sound
  have hlinks : es.filterMap c.linkOf <+: c.plan.links := hes.filterMap c.linkOf
  exact hwired.wireEdges hv hsends ⟨by simp, by simp, by simp [Plan.targets]⟩
    (fun l hl => hs.host l (hlinks.subset hl)) (fun l hl => hs.target l (hlinks.subset hl))
    (hs.nodup.sublist (hlinks.sublist.map _)) (hstart y hy) hstep

theorem Wiring.build_wired (hv : c.Valid loopbackIp) (cells : LockRef → LockCell)
    (hsends : ∀ x ∈ sends, x.1 < base) :
    ∃ y, Wired cells base sends c.plan y (Wiring.build c cells base) := by
  obtain ⟨y, hy, -⟩ := Wiring.wired_of_prefix hv cells hsends (prefix_refl c.edges)
    (Q := fun _ _ _ => True) (fun _ _ => trivial) fun _ _ _ _ _ _ _ _ _ _ _ => trivial
  exact ⟨y, hy⟩

end SerialNexus
