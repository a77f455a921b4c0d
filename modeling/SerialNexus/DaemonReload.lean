import SerialNexus.DaemonMirror

/-! # A dumped configuration loads again

The daemon keeps its configuration in a snapshot file and loads it when it starts.  `load` checks more
than the validity of a configuration, and `remove-node`, `connect` and `disconnect` check less than
`load`; `Checked` is what the codec check needs to find nothing. -/

namespace SerialNexus

open List

variable {d : Daemon} {s : GraphState} {ambient : Ambient} {config : GraphConfig}

theorem Daemon.precheckCodecs_of_forall {nodes : List NodeConfig}
    (h : ∀ n ∈ nodes, d.precheckCodec n = .ok ()) : d.precheckCodecs nodes = .ok () := by
  induction nodes with
  | nil => rfl
  | cons n nodes ih =>
    rw [forall_mem_cons] at h
    rw [precheckCodecs, forM_eq_forM, forM_cons, h.1]
    exact ih h.2

namespace GraphState

def Checked (d : Daemon) (s : GraphState) : Prop := ∀ n ∈ s.config.nodes, d.precheckCodec n = .ok ()

theorem Checked.create (h : Checked d s) (hc : ∀ n ∈ config.nodes, d.precheckCodec n = .ok ())
    (m n : ℕ) : Checked d (s.create d config m n).2 := by
  unfold GraphState.create
  split_ifs
  · exact h
  · split
    · exact h
    · exact hc

theorem teardown_checked : Checked d s.teardown := fun _ hn => absurd hn not_mem_nil

theorem Checked.load (h : Checked d s) (replace : Bool) :
    Checked d (s.load d ambient config replace).2 := by
  unfold GraphState.load
  split
  · exact h
  split
  · exact h
  next hcodec =>
    split
    · exact h
    split_ifs
    · exact teardown_checked.create (d.precheckCodecs_ok hcodec) _ _
    · exact h.create (d.precheckCodecs_ok hcodec) _ _

theorem Checked.addNode (h : Checked d s) (node : NodeConfig) :
    Checked d (s.addNode d ambient node).2 := by
  unfold GraphState.addNode
  split
  · exact h
  split
  · exact h
  next hcodec =>
    split
    · exact h
    unfold insertNode
    dsimp only
    split
    · exact h
    split
    · exact h
    · exact forall_mem_append.mpr ⟨h, d.precheckCodecs_ok hcodec⟩

theorem Checked.removeNode (h : Checked d s) (name : String) (cascade : Bool) :
    Checked d (s.removeNode d ambient name cascade).2 := by
  unfold GraphState.removeNode
  split
  · exact h
  dsimp only
  split_ifs
  · exact h
  · exact fun n hn => h n (mem_of_mem_filter hn)

theorem Checked.call (h : Checked d s) (call : GraphCall) : Checked d (s.call d ambient call).2 := by
  rcases call with (e | x) | (e | node) | (e | x) | (e | edge) | (e | edge)
  · exact h
  · exact h.load x.2
  · exact h
  · exact h.addNode node
  · exact h
  · exact h.removeNode x.1 x.2
  · exact h
  · change Checked d (s.connect d ambient edge).2
    rcases s.connect_cases d ambient edge with ⟨e, he⟩ | ⟨e, he⟩ |
      ⟨host, target, fanout, inbox, slot, -, -, -, -, -, -, he⟩ <;> rw [he] <;> exact h
  · exact h
  · change Checked d (s.disconnect ambient edge).2
    unfold GraphState.disconnect
    split
    · exact h
    dsimp only
    split <;> exact h

theorem Quiet.config_eq {s' : GraphState} (h : Quiet s s') : s'.config = s.config := by
  obtain ⟨uses, rfl⟩ := h
  induction uses generalizing s with
  | nil => rfl
  | cons u uses ih => exact ih

theorem Checked.step (h : Checked d s) (a : DaemonStep) : Checked d (step d s a) := by
  have hquiet : ∀ {s' : GraphState}, Quiet s s' → Checked d s' := by
    intro s' hq
    rw [Checked, hq.config_eq]
    exact h
  cases a with
  | call ambient call => exact h.call call
  | teardown => exact teardown_checked
  | lock ambient origin steal wait leaseMs =>
    exact hquiet (lock_quiet ambient s origin steal wait leaseMs)
  | unlock origin => exact hquiet (unlock_quiet s origin)
  | send endpoint senderClosed =>
    change Checked d (s.send d endpoint senderClosed).2
    unfold GraphState.send
    split
    · exact h
    · split_ifs <;> exact h
  | endSend i =>
    change Checked d (s.endSend i)
    unfold GraphState.endSend
    split <;> exact h
  | useLock | drain | hangUp => exact h

theorem load_checked (hv : config.Valid d.loopbackIp)
    (hc : ∀ n ∈ config.nodes, d.precheckCodec n = .ok ())
    (hflow : d.precheckFlowControl ambient config.nodes = .ok ()) {replace : Bool}
    (hreplace : replace = true ∨ s.nodes = []) :
    ∃ nodes, d.instantiateAll config.nodes = .ok nodes ∧ s.load d ambient config replace =
      (.ok (.loaded nodes.length s.nodes.length (s.discarded ambient)),
        (if replace then s.teardown else s).created config nodes) := by
  have hcodec := Daemon.precheckCodecs_of_forall hc
  obtain ⟨nodes, hnodes⟩ := Daemon.instantiateAll_of_checked hv.fields hcodec
  refine ⟨nodes, hnodes, ?_⟩
  rw [load, d.structuralErrors_eq_none_iff.mpr ((config.validate_eq_nil_iff _).mpr hv), hcodec]
  dsimp only
  rw [hflow]
  dsimp only
  cases replace with
  | true =>
    rw [if_pos rfl, create, if_neg (by simp [teardown]), hnodes]
    rfl
  | false =>
    have hempty : s.nodes = [] := by simpa using hreplace
    rw [if_neg Bool.false_ne_true, create, if_neg (not_not.mpr hempty), hnodes, discarded, hempty]
    rfl

/-- **What one run leaves, every other run can load**: a dump is accepted whatever graph it replaces,
and on a fresh start, and the graph is wired as it was. -/
theorem dump_reloads (d : Daemon) {as bs : List DaemonStep}
    (has : (machine d).Each (IdsApart d) initial as)
    (hbs : (machine d).Each (IdsApart d) initial bs) (ambient : Ambient)
    (hflow : d.precheckFlowControl ambient ((machine d).run initial as).config.nodes = .ok ())
    {replace : Bool} (hreplace : replace = true ∨ ((machine d).run initial bs).nodes = []) :
    let s := (machine d).run initial as
    let r := (machine d).run initial bs
    ∃ s', r.load d ambient s.config replace =
        (.ok (.loaded s.nodes.length r.nodes.length (r.discarded ambient)), s') ∧
      s'.config = s.config ∧ s'.nodes.map Node.name = s.nodes.map Node.name ∧
      (s'.nextEdgeOrigin ≤ sendOriginBase → Mirrors d s' ∧
        ∀ a, s.config.endpointFacing a = some .host →
          s'.fabric.hostFanout[a.display]?.map (·.map AttachedSink.target) =
            s.fabric.hostFanout[a.display]?.map (·.map AttachedSink.target)) := by
  intro s r
  have hs : Coherent d s := Coherent.initial.run has
  have hr : Coherent d r := Coherent.initial.run hbs
  have hbase : Coherent d (if replace then r.teardown else r) := by
    split_ifs
    · exact hr.teardown
    · exact hr
  have hchecked : Checked d s := Runs.Machine.invariant (fun _ a h _ => h.step a)
    (fun _ hn => absurd hn not_mem_nil) (Runs.Machine.legal_of_forall (fun _ _ _ => trivial) _)
  obtain ⟨nodes, hnodes, hload⟩ := load_checked (s := r) hs.valid hchecked hflow hreplace
  have hnames : nodes.map Node.name = s.nodes.map Node.name :=
    (Daemon.instantiateAll_names hnodes).trans hs.names.symm
  have hlength : nodes.length = s.nodes.length := by
    simpa using congrArg List.length hnames
  rw [hlength] at hload
  refine ⟨_, hload, rfl, hnames, fun hn => ?_⟩
  have hm := (hbase.created hs.valid hnodes hn).mirrors
  exact ⟨hm, fun a ha => (hm.fanouts a ha).trans (hs.mirrors.fanouts a ha).symm⟩

theorem dump_reloads_restart : ∃ s', initial.load plainDaemon plainAmbient
      ((machine plainDaemon).run initial [loadStep, connectStep]).config false =
        (.ok (.loaded 2 0 0), s') ∧ Mirrors plainDaemon s' := by
  obtain ⟨s', hload, -, -, hwired⟩ := dump_reloads plainDaemon
    (show (machine plainDaemon).Each (IdsApart plainDaemon) initial [loadStep, connectStep] by
      decide +kernel)
    (show (machine plainDaemon).Each (IdsApart plainDaemon) initial [] by trivial) plainAmbient rfl
    (.inr rfl)
  have hids := congrArg (fun x => x.2.nextEdgeOrigin) hload
  refine ⟨s', hload, (hwired ?_).1⟩
  rw [← show _ = s'.nextEdgeOrigin from hids]
  decide +kernel

end GraphState
end SerialNexus
