import SerialNexus.DaemonMirror

/-! # What a refused verb, or a verb taken back, leaves behind

* A graph verb that answers with an error has changed nothing but the counter of edge ids
  (`call_error`); in particular `load --replace` is not refused once the old graph is gone.
* A `connect` followed by a `disconnect` of the same edge restores the graph
  (`connect_disconnect`). -/

namespace SerialNexus

open List
open Std (ExtTreeMap)
open EndpointAddr (display parse)

structure EndpointLock.Stable (P : EndpointLock → Prop) : Prop where
  new : ∀ arbitration, P (.new arbitration)
  apply : ∀ l op, P l → P (l.apply op)

def Fabric.Locks {κ : Type} [Ord κ] (P : EndpointLock → Prop) (f : Fabric κ) : Prop :=
  ∀ r, P (f.cells r).lock

section locks

variable {P : EndpointLock → Prop} {κ : Type} [Ord κ] {f : Fabric κ}

theorem Fabric.Locks.withLock (h : f.Locks P) (ref : LockRef) {change : EndpointLock → EndpointLock}
    (hchange : ∀ l, P l → P (change l)) : (f.withLock ref change).Locks P := by
  intro r
  by_cases hr : r = ref
  · subst hr
    simpa [Fabric.withLock] using hchange _ (h r)
  · simpa [Fabric.withLock, hr] using h r

theorem Fabric.Locks.congr {κ' : Type} [Ord κ'] {g : Fabric κ'} (h : f.Locks P)
    (hcells : ∀ r, (g.cells r).lock = (f.cells r).lock) : g.Locks P := by
  intro r
  rw [hcells r]
  exact h r

variable [Std.TransOrd κ]

theorem Fabric.attach_cells (f : Fabric κ) (host target : κ) (addr : EndpointAddr)
    (origin : OriginId) (mode : WriteMode) (depth : ℕ) (fanout : List AttachedSink)
    (inbox : Channel HostwardChannel) (slot : TargetEdge) :
    (f.attach host target addr origin mode depth fanout inbox slot).2.cells = f.cells ∨
      ∃ ref, (f.attach host target addr origin mode depth fanout inbox slot).2.cells =
        (f.withLock ref (·.register origin addr.display mode)).cells := by
  simp only [Fabric.attach, attachEdge]
  by_cases hfull : (inbox.trySend ⟨origin, depth⟩).1 = .full
  · rw [if_pos hfull]
    refine .inl ?_
    cases hlock : f.endpointLocks[host]? with
    | none | some => simp [Fabric.store]
  · rw [if_neg hfull]
    cases hlock : f.endpointLocks[host]? with
    | none => exact .inl (by simp [Fabric.store])
    | some ref => exact .inr ⟨ref, by simp [Fabric.store, Fabric.withLock]⟩

variable (hP : EndpointLock.Stable P)
include hP

theorem Fabric.Locks.attach (h : f.Locks P) (host target : κ) (addr : EndpointAddr)
    (origin : OriginId) (mode : WriteMode) (depth : ℕ) (fanout : List AttachedSink)
    (inbox : Channel HostwardChannel) (slot : TargetEdge) :
    (f.attach host target addr origin mode depth fanout inbox slot).2.Locks P := by
  rcases f.attach_cells host target addr origin mode depth fanout inbox slot with hc | ⟨ref, hc⟩
  · exact h.congr fun r => by rw [hc]
  · have hreg : (f.withLock ref (·.register origin addr.display mode)).Locks P :=
      h.withLock ref fun l hl => hP.apply l (.register origin addr.display mode) hl
    exact hreg.congr fun r => by rw [hc]

omit hP in
theorem Fabric.Locks.address (h : f.Locks P) (target : κ) (attached : AttachOutcome) :
    (f.address target attached).Locks P := by
  refine h.congr fun r => ?_
  unfold Fabric.address
  split_ifs
  · cases attached.registered <;> rfl
  · rfl

theorem Fabric.Locks.addEndpoint {f : Fabric EndpointAddr} (h : f.Locks P) (addr : EndpointAddr)
    (facing : Facing) (arbitration : Arbitration) : (f.addEndpoint addr facing arbitration).Locks P := by
  cases facing with
  | target => exact h
  | host =>
    intro r
    by_cases hr : r = f.nextRef
    · subst hr
      simpa [Fabric.addEndpoint] using hP.new arbitration
    · simpa [Fabric.addEndpoint, hr] using h r

theorem Wiring.wireEdge_locks (c : GraphConfig) {w : Wiring} (h : w.fabric.Locks P)
    (edge : EdgeConfig) : (Wiring.wireEdge c w edge).fabric.Locks P := by
  unfold Wiring.wireEdge Wiring.attachAt
  cases edgeEnds (facings c) edge with
  | none => exact h
  | some ends =>
    dsimp only
    split
    · next heq =>
      split at heq
      · cases heq
        exact (Fabric.Locks.attach hP h _ _ _ _ _ _ _ _ _).address _ _
      · cases heq
    · exact h

theorem Wiring.build_locks (c : GraphConfig) {cells : LockRef → LockCell}
    (h : ∀ r, P (cells r).lock) (nextRef : ℕ) : (Wiring.build c cells nextRef).fabric.Locks P := by
  have hendpoints : ∀ (xs : List (EndpointAddr × Facing × Arbitration)) (f : Fabric EndpointAddr),
      f.Locks P → (xs.foldl (fun f x => f.addEndpoint x.1 x.2.1 x.2.2) f).Locks P := by
    intro xs
    induction xs with
    | nil => exact fun f hf => hf
    | cons x xs ih => exact fun f hf => ih _ (hf.addEndpoint hP x.1 x.2.1 x.2.2)
  have hedges : ∀ (es : List EdgeConfig) (w : Wiring), w.fabric.Locks P →
      (es.foldl (Wiring.wireEdge c) w).fabric.Locks P := by
    intro es
    induction es with
    | nil => exact fun w hw => hw
    | cons e es ih => exact fun w hw => ih _ (Wiring.wireEdge_locks hP c hw e)
  exact hedges _ _ (hendpoints _ _ h)

end locks

section fabric

variable {P : EndpointLock → Prop} (hP : EndpointLock.Stable P) {f : Fabric String}

theorem Fabric.Locks.closeLock (h : f.Locks P) (ref : LockRef) : (f.closeLock ref).Locks P := by
  refine h.congr fun r => ?_
  by_cases hr : r = ref
  · subst hr
    simp [Fabric.closeLock]
  · simp [Fabric.closeLock, hr]

theorem Fabric.Locks.closeLocks (h : f.Locks P) (refs : List LockRef) :
    (refs.foldl (fun f ref => f.closeLock ref) f).Locks P := by
  induction refs generalizing f with
  | nil => exact h
  | cons ref refs ih => exact ih (h.closeLock ref)

include hP

theorem Fabric.Locks.detach (h : f.Locks P) (host target : String) : (f.detach host target).Locks P := by
  unfold Fabric.detach
  dsimp only
  split
  · next ref id _ => exact Fabric.Locks.withLock h ref fun l hl => hP.apply l (.unregister id) hl
  · exact h

theorem Fabric.Locks.detachAll (h : f.Locks P) (ends : List (EndpointAddr × EndpointAddr)) :
    (ends.foldl (fun f x => f.detach x.1.display x.2.display) f).Locks P := by
  induction ends generalizing f with
  | nil => exact h
  | cons x ends ih => exact ih (h.detach hP _ _)

theorem Fabric.Locks.dropEndpoint (h : f.Locks P) (ls : List LockRef) (ep : String) :
    (Fabric.dropEndpoint (ls, f) ep).2.Locks P := by
  have hclosed := h.closeLocks f.endpointLocks[ep]?.toList
  unfold Fabric.dropEndpoint
  dsimp only
  split
  · next ref id _ => exact Fabric.Locks.withLock hclosed ref fun l hl => hP.apply l (.unregister id) hl
  · exact hclosed

theorem Fabric.Locks.dropEndpoints (h : f.Locks P) (eps : List String) :
    (f.dropEndpoints eps).Locks P := by
  have hfold : ∀ (eps : List String) (x : List LockRef × Fabric String), x.2.Locks P →
      (eps.foldl Fabric.dropEndpoint x).2.Locks P := by
    intro eps
    induction eps with
    | nil => exact fun x hx => hx
    | cons ep eps ih => exact fun x hx => ih _ (Fabric.Locks.dropEndpoint hP hx x.1 ep)
  rw [Fabric.dropEndpoints, Fabric.forget_eq]
  exact hfold eps ([], f) h

end fabric

namespace GraphState

variable {P : EndpointLock → Prop} (hP : EndpointLock.Stable P) {d : Daemon} {s : GraphState}
include hP

theorem locks_quiet (h : s.fabric.Locks P) {s' : GraphState} (hq : Quiet s s') :
    s'.fabric.Locks P := by
  obtain ⟨uses, rfl⟩ := hq
  induction uses generalizing s with
  | nil => exact h
  | cons u uses ih =>
    exact ih (Fabric.Locks.withLock h u.1 fun l hl => hP.apply l u.2.op hl)

omit hP in
theorem locks_teardown (h : s.fabric.Locks P) : s.teardown.fabric.Locks P := h.closeLocks _

theorem locks_call (h : s.fabric.Locks P) (ambient : Ambient) (call : GraphCall) :
    (s.call d ambient call).2.fabric.Locks P := by
  have hcalled := s.call_called d ambient call
  generalize s.call d ambient call = r at hcalled ⊢
  cases hcalled with
  | refused e | numbered e | endless reply hi hends => exact h
  | @loaded config nodes replace reply hv hnodes =>
    have hcreated : ∀ s : GraphState, s.fabric.Locks P → (s.created config nodes).fabric.Locks P :=
      fun s h => Wiring.build_locks hP config h s.fabric.nextRef
    cases replace with
    | true => exact hcreated _ (locks_teardown h)
    | false => exact hcreated _ h
  | added reply hv hname => exact Wiring.build_locks hP _ h s.fabric.nextRef
  | removed reply hidx => exact (h.detachAll hP _).dropEndpoints hP _
  | @connected edge host target fanout inbox slot hv hends hfanout hroom =>
    have hattached := h.attach hP host.display target.display target s.nextEdgeOrigin
      (s.config.effectiveWriteMode edge) (hostwardDepth s.config host.node) fanout inbox slot
    simp only [connected, finishConnect]
    split
    · next ref id _ =>
      split_ifs
      · exact (hattached.address _ _).withLock ref fun l hl => hP.apply l (.recordPurge id _) hl
      · exact hattached.address _ _
    · exact hattached
  | disconnected reply hi hends => exact h.detach hP _ _

theorem locks_step (h : s.fabric.Locks P) (a : DaemonStep) : (step d s a).fabric.Locks P := by
  cases a with
  | call ambient call => exact locks_call hP h ambient call
  | teardown => exact locks_teardown h
  | lock ambient origin steal wait leaseMs =>
    exact locks_quiet hP h (lock_quiet ambient s origin steal wait leaseMs)
  | unlock origin => exact locks_quiet hP h (unlock_quiet s origin)
  | send endpoint senderClosed =>
    change (s.send d endpoint senderClosed).2.fabric.Locks P
    rcases s.send_cases endpoint senderClosed with hsame | ⟨ref, -, hstate⟩
    · rw [hsame]
      exact h
    · rw [hstate]
      exact Fabric.Locks.withLock h ref fun l hl =>
        hP.apply l (.register s.nextSendOrigin "send" .onDemand) hl
  | endSend i =>
    change (s.endSend i).fabric.Locks P
    unfold GraphState.endSend
    split
    · exact h
    · next ref id _ => exact Fabric.Locks.withLock h ref fun l hl => hP.apply l (.unregister id) hl
  | useLock ref use => exact locks_quiet hP h (Quiet.use s ref use)
  | drain | hangUp => exact h

theorem locks_run (as : List DaemonStep) : ((machine d).run initial as).fabric.Locks P := by
  have hlegal : (machine d).Legal initial as :=
    Runs.Machine.legal_of_forall (fun _ _ _ => trivial) initial
  exact Runs.Machine.invariant (I := fun s => s.fabric.Locks P) (fun _ a hs _ => locks_step hP hs a)
    (fun _ => hP.new .exclusive) hlegal

end GraphState

namespace EndpointLock

structure Confined (l : EndpointLock) : Prop where
  holder : ∀ i, l.holder = some i → i ∈ l.origins
  waiters : ∀ i ∈ l.waiters, i ∈ l.origins

variable {l l' : EndpointLock} {id : OriginId}

theorem Confined.of_origins (h : l.Confined) (ho : ∀ i ∈ l.origins, i ∈ l'.origins)
    (hh : ∀ i, l'.holder = some i → l.holder = some i ∨ i ∈ l'.origins)
    (hw : ∀ i ∈ l'.waiters, i ∈ l.waiters ∨ i ∈ l'.origins) : l'.Confined where
  holder i hi := (hh i hi).elim (fun h' => ho i (h.holder i h')) id
  waiters i hi := (hw i hi).elim (fun h' => ho i (h.waiters i h')) id

theorem mem_origins_of_getElem? {i : OriginId} {o : Origin} (h : l.origins[i]? = some o) :
    i ∈ l.origins :=
  ExtTreeMap.mem_iff_isSome_getElem?.mpr (by rw [h]; rfl)

theorem Confined.register (h : l.Confined) (id : OriginId) (label : String) (mode : WriteMode) :
    (l.register id label mode).Confined := by
  have hid : id ∈ (l.register id label mode).origins := by
    rw [register_origins]
    exact ExtTreeMap.mem_insert_self
  refine h.of_origins (fun i hi => ?_) (fun i hi => ?_) (fun i hi => .inl ?_)
  · rw [register_origins]
    exact ExtTreeMap.mem_insert.mpr (.inr hi)
  · unfold EndpointLock.register at hi
    dsimp only at hi
    split_ifs at hi
    · exact .inr (Option.some.inj hi ▸ hid)
    · exact .inl hi
  · unfold EndpointLock.register at hi
    dsimp only at hi
    split_ifs at hi <;> exact hi

theorem Confined.unregister (h : l.Confined) (id : OriginId) : (l.unregister id).2.Confined := by
  have hmem : ∀ i ∈ l.origins, i ≠ id → i ∈ (l.unregister id).2.origins := fun i hi hne => by
    rw [unregister_origins]
    exact ExtTreeMap.mem_erase.mpr ⟨by simpa using Ne.symm hne, hi⟩
  constructor
  · intro i hi
    unfold EndpointLock.unregister at hi
    split_ifs at hi with hheld
    exact hmem i (h.holder i hi) fun heq => hheld (heq ▸ hi)
  · intro i hi
    have hw : i ∈ l.waiters.filter (· ≠ id) := by
      unfold EndpointLock.unregister at hi
      split_ifs at hi <;> exact hi
    obtain ⟨hmem', hne⟩ := mem_filter.mp hw
    exact hmem i (h.waiters i hmem') (by simpa using hne)

theorem Confined.of_same (h : l.Confined) (ho : l'.origins = l.origins)
    (hh : ∀ i, l'.holder = some i → l.holder = some i ∨ i ∈ l.origins)
    (hw : ∀ i ∈ l'.waiters, i ∈ l.waiters ∨ i ∈ l.origins) : l'.Confined :=
  h.of_origins (fun _ hi => ho ▸ hi) (ho ▸ hh) (ho ▸ hw)

theorem Confined.grantTo (h : l.Confined) (hid : id ∈ l.origins) : (l.grantTo id).Confined :=
  h.of_same rfl (fun _ hi => .inr (Option.some.inj hi ▸ hid)) fun _ hi =>
    .inl (mem_of_mem_filter hi)

theorem confined_stable : Stable Confined where
  new arbitration := ⟨by simp [EndpointLock.new], by simp [EndpointLock.new]⟩
  apply l op h := by
    cases op with
    | register id label mode => exact h.register id label mode
    | unregister id => exact h.unregister id
    | acquire id =>
      rcases l.acquire_cases id with hsame | ⟨⟨o, ho, -⟩, -, hgrant⟩
      · rw [EndpointLock.apply, hsame]
        exact h
      · rw [EndpointLock.apply, hgrant]
        exact h.grantTo (mem_origins_of_getElem? ho)
    | enqueue id =>
      rw [EndpointLock.apply, EndpointLock.enqueue]
      split
      · next o ho =>
        split_ifs
        · exact h
        · refine h.of_same rfl (fun _ => .inl) fun i hi => ?_
          rcases mem_append.mp hi with hi | hi
          · exact .inl hi
          · exact .inr (mem_singleton.mp hi ▸ mem_origins_of_getElem? ho)
        · exact h
      · exact h
    | dequeue id => exact h.of_same rfl (fun _ => .inl) fun _ hi => .inl (mem_of_mem_filter hi)
    | steal id =>
      rw [EndpointLock.apply, EndpointLock.steal]
      split
      · exact h
      · next o ho =>
        split_ifs
        · exact h
        · exact h
        · exact h
        · exact h.of_same rfl
            (fun _ hi => .inr (Option.some.inj hi ▸ mem_origins_of_getElem? ho))
            fun _ hi => .inl (mem_of_mem_filter hi)
    | reclaimHeld id =>
      rw [EndpointLock.apply, EndpointLock.reclaimHeld]
      split
      · next o ho =>
        split_ifs
        · exact h
        · exact h.grantTo (mem_origins_of_getElem? ho)
        · exact h
        · exact h
      · exact h
    | release id =>
      rw [EndpointLock.apply, EndpointLock.release]
      split_ifs
      · exact h.of_same rfl (by simp) fun _ => .inl
      · exact h
    | renew id =>
      rw [EndpointLock.apply, EndpointLock.renew]
      split_ifs
      · exact h.of_same rfl (fun _ => .inl) fun _ => .inl
      · exact h
    | recordPurge id bytes =>
      refine h.of_origins (fun i hi => ?_) (fun _ => .inl) fun _ => .inl
      exact ExtTreeMap.mem_modify.mpr hi

structure SameLock (l l' : EndpointLock) : Prop where
  arbitration : l'.arbitration = l.arbitration
  origins : l'.origins = l.origins
  holder : l'.holder = l.holder
  waiters : l'.waiters = l.waiters
  stolen : l'.stolen = l.stolen

theorem SameLock.refl (l : EndpointLock) : SameLock l l := ⟨rfl, rfl, rfl, rfl, rfl⟩

theorem Confined.register_unregister (h : l.Confined) (hid : id ∉ l.origins) (label : String)
    (mode : WriteMode) {change : EndpointLock → EndpointLock}
    (hchange : change = (fun l => l) ∨ ∃ bytes, change = (·.recordPurge id bytes)) :
    SameLock l ((change (l.register id label mode)).unregister id).2 := by
  have hheld : l.holder ≠ some id := fun hi => hid (h.holder id hi)
  have hwait : l.waiters.filter (· ≠ id) = l.waiters :=
    filter_eq_self.mpr fun i hi => decide_eq_true fun heq => hid (heq ▸ h.waiters i hi)
  have hregister : (l.register id label mode).arbitration = l.arbitration ∧
      (l.register id label mode).waiters = l.waiters ∧
      (l.register id label mode).stolen = l.stolen ∧
      ((l.register id label mode).holder = l.holder ∨
        (l.holder = none ∧ (l.register id label mode).holder = some id)) := by
    unfold EndpointLock.register
    dsimp only
    split_ifs with hgrant
    · exact ⟨rfl, rfl, rfl, .inr ⟨hgrant.2.2, rfl⟩⟩
    · exact ⟨rfl, rfl, rfl, .inl rfl⟩
  obtain ⟨ha, hw, hs, hh⟩ := hregister
  -- the purge is recorded inside the registration that goes away
  have hothers : ∀ k ≠ id, (change (l.register id label mode)).origins[k]? = l.origins[k]? := by
    intro k hk
    have hreg : (l.register id label mode).origins[k]? = l.origins[k]? := by
      rw [register_origins]
      exact Keyed.getElem?_insert_ne hk.symm _
    rcases hchange with rfl | ⟨bytes, rfl⟩
    · exact hreg
    · exact (Keyed.getElem?_modify_ne hk.symm _).trans hreg
  have hkeep : (change (l.register id label mode)).arbitration = l.arbitration ∧
      (change (l.register id label mode)).waiters = l.waiters ∧
      (change (l.register id label mode)).stolen = l.stolen ∧
      (change (l.register id label mode)).holder = (l.register id label mode).holder := by
    rcases hchange with rfl | ⟨bytes, rfl⟩
    · exact ⟨ha, hw, hs, rfl⟩
    · exact ⟨ha, hw, hs, rfl⟩
  obtain ⟨ha, hw, hs, hh'⟩ := hkeep
  have horigins : ((change (l.register id label mode)).unregister id).2.origins = l.origins := by
    rw [unregister_origins]
    refine ExtTreeMap.ext_getElem? fun k => ?_
    by_cases hk : k = id
    · subst hk
      rw [ExtTreeMap.getElem?_erase_self, ExtTreeMap.getElem?_eq_none hid]
    · rw [Keyed.getElem?_erase_ne (Ne.symm hk), hothers k hk]
  unfold EndpointLock.unregister at horigins ⊢
  rcases hh with hh | ⟨hnone, hh⟩
  · rw [if_neg (by rw [hh', hh]; exact hheld)] at horigins ⊢
    exact ⟨ha, horigins, hh'.trans hh, (congrArg _ hw).trans hwait, hs⟩
  · rw [if_pos (hh'.trans hh)] at horigins ⊢
    exact ⟨ha, horigins, hnone.symm, (congrArg _ hw).trans hwait, hs⟩

end EndpointLock

namespace GraphState

variable {d : Daemon} {s : GraphState}

variable {ambient : Ambient} {s' : GraphState}

theorem call_error {call : GraphCall} {e : RpcError} (h : s.call d ambient call = (.error e, s')) :
    ∃ n, s' = { s with nextEdgeOrigin := n } := by
  have hcalled := s.call_called d ambient call
  generalize s.call d ambient call = r at hcalled h
  cases hcalled with
  | refused e' => exact ⟨s.nextEdgeOrigin, (congrArg Prod.snd h).symm⟩
  | numbered e' => exact ⟨s.nextEdgeOrigin + 1, (congrArg Prod.snd h).symm⟩
  | connected hv hends hfanout hroom => cases congrArg Prod.fst h
  | _ => cases h

structure Restored (s s' : GraphState) : Prop where
  config : s'.config = s.config
  nodes : s'.nodes = s.nodes
  endpointLocks : s'.fabric.endpointLocks = s.fabric.endpointLocks
  endpointTargetward : s'.fabric.endpointTargetward = s.fabric.endpointTargetward
  originLocks : s'.fabric.originLocks = s.fabric.originLocks
  hostFanout : s'.fabric.hostFanout = s.fabric.hostFanout
  targetCounters : s'.fabric.targetCounters = s.fabric.targetCounters
  targetEdges : s'.fabric.targetEdges = s.fabric.targetEdges
  sends : s'.sends = s.sends
  locks : ∀ ref, EndpointLock.SameLock (s.fabric.cells ref).lock (s'.fabric.cells ref).lock

theorem sameEdge_edgeEnds {x y : EdgeConfig} (h : sameEdge x y = true) (c : GraphConfig) :
    c.edgeEnds x = c.edgeEnds y := by
  simp only [sameEdge, Bool.or_eq_true, Bool.and_eq_true, decide_eq_true_eq] at h
  rcases h with ⟨ha, hb⟩ | ⟨ha, hb⟩
  · rw [GraphConfig.edgeEnds, GraphConfig.edgeEnds, ha, hb]
  · rw [GraphConfig.edgeEnds, GraphConfig.edgeEnds, ha, hb]
    rcases c.endpointFacing y.b with _ | _ | _ <;> rcases c.endpointFacing y.a with _ | _ | _ <;> rfl

theorem detach_linked {p : Plan} {y : Layout} {f : Fabric String} {n : ℕ}
    {sends : List (LockRef × OriginId)} (hy : Realised p y sends n f) {l : Link}
    (hhost : p.host l.host) (htarget : p.target l.target) (hfree : l.target ∉ p.targets)
    {fanout : List AttachedSink} (hfanout : f.hostFanout[l.host.display]? = some fanout)
    {sink : AttachedSink} (hsink : sink.target = l.target) (inbox : Channel HostwardChannel)
    (change : EndpointLock → EndpointLock) :
    (((f.linked display l (y.lock l.host) n (fanout ++ [sink]) inbox).withLock (y.lock l.host)
        change).detach l.host.display l.target.display) =
      { f.withLock (y.lock l.host)
          (fun k => ((change (k.register n l.target.display l.mode)).unregister n).2) with
        targetInbox := f.targetInbox.insert l.target.display inbox } := by
  have hparse := hy.readable _ (.inr htarget)
  have hfan : (f.hostFanout.insert l.host.display (fanout ++ [sink])).modify l.host.display
      (·.filter fun k => k.target ≠ parse l.target.display) = f.hostFanout := by
    have hothers : ∀ k ∈ fanout, k.target ≠ l.target := by
      intro k hk heq
      have hsinks := hy.mapped.sinks l.host hhost
      rw [hfanout, Option.map_some, Option.some.injEq] at hsinks
      have hmem : l.target ∈ (p.links.filter (·.host = l.host)).map Link.target :=
        hsinks ▸ heq ▸ mem_map_of_mem hk
      exact hfree ((filter_sublist.map _).subset hmem)
    have hfilter : (fanout ++ [sink]).filter (fun k => k.target ≠ l.target) = fanout := by
      rw [filter_append, filter_eq_self.mpr fun k hk => decide_eq_true (hothers k hk)]
      simp [hsink]
    rw [hparse]
    exact Keyed.modify_insert (hfanout.trans (congrArg some hfilter.symm))
  have horigin : (if l.mode = .never then f.originLocks
      else f.originLocks.insert l.target.display (y.lock l.host, n)).erase l.target.display =
      f.originLocks := by
    have hnone : f.originLocks[l.target.display]? = none := by
      refine ExtTreeMap.getElem?_eq_none fun hmem => hfree ?_
      obtain ⟨l', hl', hd⟩ := hy.mapped.addressed _ hmem
      rw [← hy.key _ _ (.inr (hy.sound.target l' hl')) (.inr htarget) hd]
      exact mem_map_of_mem hl'
    split_ifs
    · exact Keyed.erase_of_none hnone
    · exact Keyed.erase_insert hnone _
  have hslot : ∀ slot, (f.targetEdges.insert l.target.display slot).modify l.target.display
      (fun e => { e with registered := none, writer := none, attached := false }) =
      f.targetEdges :=
    fun slot => Keyed.modify_insert (hy.mapped.unlinked _ htarget hfree)
  simp only [Fabric.detach, Fabric.withLock, Fabric.linked, ExtTreeMap.getElem?_insert_self,
    Option.bind_some, hfan, horigin, hslot, Function.update_self, Function.update_idem]

theorem Coherent.connect_disconnect (h : Coherent d s)
    (hlocks : s.fabric.Locks EndpointLock.Confined) {ambient' : Ambient} {edge edge' : EdgeConfig}
    (hsame : sameEdge edge edge' = true) {reply : Reply}
    (hok : s.connect d ambient edge = (.ok reply, s')) (hn : s'.nextEdgeOrigin ≤ sendOriginBase) :
    ∃ reply' s'', s'.disconnect ambient' edge' = (.ok reply', s'') ∧ Restored s s'' := by
  rcases s.connect_cases d ambient edge with ⟨e, he⟩ | ⟨e, he⟩ |
    ⟨host, target, fanout, inbox, slot, hv, hends, hfanout, -, -, hroom, hconnect⟩
  · rw [he] at hok
    cases hok
  · rw [he] at hok
    cases hok
  obtain ⟨y, hy⟩ := h.realised
  obtain ⟨hhost, htarget, -⟩ := GraphConfig.edgeEnds_cases hends
  have hfree := candidate_free hv hends
  obtain ⟨sink, inbox', change, hsink, hchange, hstate⟩ := connected_fabric hy ambient hends hroom
  obtain rfl : _ = s' := hstate.symm.trans (congrArg Prod.snd (hconnect.symm.trans hok))
  have hnew : ∀ e ∈ s.config.edges, sameEdge e edge' = false := by
    intro e he
    refine Bool.eq_false_iff.mpr fun hse => hfree ?_
    have hends' : s.config.edgeEnds e = some (host, target) := by
      rw [sameEdge_edgeEnds hse, ← sameEdge_edgeEnds hsame, hends]
    exact mem_map.mpr ⟨_, GraphConfig.mem_plan_links (l := ⟨host, target, _⟩).mpr ⟨e, he, hends', rfl⟩, rfl⟩
  have hindex : (s.config.edges ++ [edge]).findIdx? (sameEdge · edge') =
      some s.config.edges.length := by
    rw [findIdx?_append, findIdx?_eq_none_iff.mpr hnew]
    simp [hsame]
  have hlast : (s.config.edges ++ [edge])[s.config.edges.length]? = some edge := by simp
  have hends' : (s.candidate edge).edgeEnds edge = some (host, target) := hends
  have herase : (s.config.edges ++ [edge]).eraseIdx s.config.edges.length = s.config.edges := by
    rw [eraseIdx_append_of_length_le le_rfl]
    simp
  have hdetach := detach_linked (l := s.edgeLink edge host target) hy hhost htarget hfree hfanout
    hsink inbox' change
  have hid : s.nextEdgeOrigin ∉ (s.fabric.cells (y.lock host)).lock.origins := by
    rw [EndpointLock.mem_origins_iff]
    exact Option.not_isSome_iff_eq_none.mpr (hy.next_free hn hhost)
  refine ⟨_, _, disconnect_found ambient' _ hindex hlast hends', ?_⟩
  dsimp only [candidate, edgeLink] at hdetach ⊢
  rw [herase, hdetach]
  refine ⟨rfl, rfl, rfl, rfl, rfl, rfl, rfl, rfl, rfl, fun ref => ?_⟩
  by_cases href : ref = y.lock host
  · subst href
    simpa [Fabric.withLock] using (hlocks (y.lock host)).register_unregister hid target.display
      (s.config.effectiveWriteMode edge) hchange
  · simpa [Fabric.withLock, href] using EndpointLock.SameLock.refl (s.fabric.cells ref).lock

theorem graph_verbs_frame (d : Daemon) :
    (∀ s ambient call e s', GraphState.call d ambient s call = (.error e, s') →
      ∃ n, s' = { s with nextEdgeOrigin := n }) ∧
    ∀ as, (machine d).Each (IdsApart d) initial as →
      ∀ ambient ambient' edge edge' reply s', sameEdge edge edge' = true →
        ((machine d).run initial as).call d ambient (.connect (.ok edge)) = (.ok reply, s') →
        s'.nextEdgeOrigin ≤ sendOriginBase →
        ∃ reply' s'', s'.call d ambient' (.disconnect (.ok edge')) = (.ok reply', s'') ∧
          Restored ((machine d).run initial as) s'' := by
  refine ⟨fun s ambient call e s' h => call_error h, ?_⟩
  intro as has ambient ambient' edge edge' reply s' hsame hok hn
  exact (Coherent.initial.run has).connect_disconnect
    (locks_run EndpointLock.confined_stable as) hsame hok hn

theorem graph_verbs_frame_portToLog :
    ∃ reply s', ((machine plainDaemon).run initial [loadStep, connectStep]).call plainDaemon
        plainAmbient (.disconnect (.ok portToLog)) = (.ok reply, s') ∧
      Restored ((machine plainDaemon).run initial [loadStep]) s' :=
  (graph_verbs_frame plainDaemon).2 [loadStep] (by decide +kernel) plainAmbient plainAmbient
    portToLog portToLog (.connected "s" "l" .never true) _ (by decide +kernel)
    (Prod.ext (by decide +kernel) rfl) (by decide +kernel)

def sending : GraphState :=
  (machine plainDaemon).run { crowded with nextEdgeOrigin := sendOriginBase }
    [.drain "l", .send "s" false]

theorem disconnect_unregisters_send :
    ∃ reply s' reply' s'',
      ((machine plainDaemon).run initial (refusals ++ [.drain "l", .send "s" false])).call plainDaemon
        plainAmbient (.connect (.ok portToLog)) = (.ok reply, s') ∧
      s'.call plainDaemon plainAmbient (.disconnect (.ok portToLog)) = (.ok reply', s'') ∧
      ¬ Restored ((machine plainDaemon).run initial (refusals ++ [.drain "l", .send "s" false])) s'' := by
  rw [Runs.Machine.run_append, run_refusals]
  change ∃ reply s' reply' s'', sending.call plainDaemon plainAmbient (.connect (.ok portToLog)) = _ ∧
    _ ∧ ¬ Restored sending s''
  refine ⟨.connected "s" "l" .never true, _, .disconnected "s" "l" (some (false, 0)), _,
    Prod.ext (by decide +kernel) rfl, Prod.ext (by decide +kernel) rfl, fun h => ?_⟩
  have horigins := (h.locks 1).origins
  have hbefore : (sending.fabric.cells 1).lock.origins[sendOriginBase]?.isSome = true := by
    decide +kernel
  rw [← horigins] at hbefore
  exact absurd hbefore (by decide +kernel)

end GraphState
end SerialNexus
