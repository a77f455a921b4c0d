import SerialNexus.Keyed
import SerialNexus.LockInvariant
import SerialNexus.Wiring

/-! # Wiring plans

What the wiring is for, without maps and handles: a `Plan` says which endpoints face which way and
which links join them.  A fabric realises a plan in its maps (`Mapped`) and in the registrations on
its locks (`Enrolled`). -/

namespace SerialNexus

open List Function
open Std (ExtTreeMap)

structure Link where
  host : EndpointAddr
  target : EndpointAddr
  mode : WriteMode
deriving DecidableEq

@[ext]
structure Plan where
  host : EndpointAddr → Prop
  target : EndpointAddr → Prop
  links : List Link

structure Layout where
  lock : EndpointAddr → LockRef
  id : EndpointAddr → OriginId

namespace Plan

def none : Plan := ⟨fun _ => False, fun _ => False, []⟩

def Has (p : Plan) (a : EndpointAddr) : Prop := p.host a ∨ p.target a

def targets (p : Plan) : List EndpointAddr := p.links.map Link.target

structure Sound (p : Plan) : Prop where
  host : ∀ l ∈ p.links, p.host l.host
  target : ∀ l ∈ p.links, p.target l.target
  nodup : p.targets.Nodup

def KeyInj {κ : Type} (p : Plan) (key : EndpointAddr → κ) : Prop :=
  ∀ a b, p.Has a → p.Has b → key a = key b → a = b

def link (p : Plan) (l : Link) : Plan := { p with links := p.links ++ [l] }

def unlink (p : Plan) (t : EndpointAddr) : Plan := { p with links := p.links.filter (·.target ≠ t) }

theorem targets_link (p : Plan) (l : Link) : (p.link l).targets = p.targets ++ [l.target] := by
  simp [targets, link]

theorem Sound.link {p : Plan} (h : p.Sound) {l : Link} (hhost : p.host l.host)
    (htarget : p.target l.target) (hfree : l.target ∉ p.targets) : (p.link l).Sound where
  host l' hl' := by
    rcases mem_append.mp hl' with hl' | hl'
    · exact h.host l' hl'
    · exact mem_singleton.mp hl' ▸ hhost
  target l' hl' := by
    rcases mem_append.mp hl' with hl' | hl'
    · exact h.target l' hl'
    · exact mem_singleton.mp hl' ▸ htarget
  nodup := by
    rw [targets_link]
    exact h.nodup.append (nodup_singleton _) (List.disjoint_singleton.mpr hfree)

end Plan

section keys

variable {κ : Type} [Ord κ] [Std.TransOrd κ] [Std.LawfulEqOrd κ] {β : Type}

/-! ### Keys -/

def KeyedBy (key : EndpointAddr → κ) (P : EndpointAddr → Prop) (m : ExtTreeMap κ β) : Prop :=
  ∀ k, k ∈ m ↔ ∃ a, P a ∧ key a = k

variable {key : EndpointAddr → κ} {P Q : EndpointAddr → Prop} {m : ExtTreeMap κ β}

omit [Std.LawfulEqOrd κ] in
theorem KeyedBy.mem (h : KeyedBy key P m) {a : EndpointAddr} (ha : P a) : key a ∈ m :=
  (h _).mpr ⟨a, ha, rfl⟩

omit [Std.LawfulEqOrd κ] in
theorem KeyedBy.congr (h : KeyedBy key P m) (hpq : ∀ a, P a ↔ Q a) : KeyedBy key Q m := by
  intro k
  simp only [h k, hpq]

theorem KeyedBy.overwrite (h : KeyedBy key P m) {k : κ} (hk : k ∈ m) (v : β) :
    KeyedBy key P (m.insert k v) := by
  intro k'
  rw [ExtTreeMap.mem_insert, ← h k', Std.compare_eq_iff_eq]
  constructor
  · rintro (rfl | hk')
    · exact hk
    · exact hk'
  · exact .inr

theorem KeyedBy.insert (h : KeyedBy key P m) (a : EndpointAddr) (v : β) :
    KeyedBy key (fun b => P b ∨ b = a) (m.insert (key a) v) := by
  intro k
  rw [ExtTreeMap.mem_insert, h k, Std.compare_eq_iff_eq]
  constructor
  · rintro (rfl | ⟨b, hb, rfl⟩)
    · exact ⟨a, .inr rfl, rfl⟩
    · exact ⟨b, .inl hb, rfl⟩
  · rintro ⟨b, hb | rfl, rfl⟩
    · exact .inr ⟨b, hb, rfl⟩
    · exact .inl rfl

omit [Std.LawfulEqOrd κ] in
theorem KeyedBy.modify (h : KeyedBy key P m) (k : κ) (g : β → β) :
    KeyedBy key P (m.modify k g) := by
  intro k'
  rw [ExtTreeMap.mem_modify, h k']

end keys

structure Mapped {κ : Type} [Ord κ] [Std.TransOrd κ] (key : EndpointAddr → κ) (p : Plan)
    (y : Layout) (f : Fabric κ) : Prop where
  locks : KeyedBy key p.host f.endpointLocks
  targetward : KeyedBy key p.host f.endpointTargetward
  fanouts : KeyedBy key p.host f.hostFanout
  inboxes : KeyedBy key p.target f.targetInbox
  counters : KeyedBy key p.target f.targetCounters
  slots : KeyedBy key p.target f.targetEdges
  lockAt : ∀ a, p.host a → f.endpointLocks[key a]? = some (y.lock a)
  sinks : ∀ a, p.host a → f.hostFanout[key a]?.map (·.map AttachedSink.target) =
    some ((p.links.filter (·.host = a)).map Link.target)
  linked : ∀ l ∈ p.links, f.targetEdges[key l.target]? = some
    { registered := some (y.lock l.host, y.id l.target)
      writer := if l.mode = .never then none else f.endpointTargetward[key l.host]?
      attached := true }
  unlinked : ∀ t, p.target t → t ∉ p.targets → f.targetEdges[key t]? = some {}
  addressable : ∀ l ∈ p.links, f.originLocks[key l.target]? =
    if l.mode = .never then none else some (y.lock l.host, y.id l.target)
  addressed : ∀ k, k ∈ f.originLocks → ∃ l ∈ p.links, key l.target = k

def Fabric.modes {κ : Type} [Ord κ] (f : Fabric κ) (ref : LockRef) (i : OriginId) :
    Option WriteMode := (f.cells ref).lock.writeMode i

structure Enrolled (p : Plan) (y : Layout) (sends : List (LockRef × OriginId))
    (modes : LockRef → OriginId → Option WriteMode) : Prop where
  inj : ∀ a b, p.host a → p.host b → y.lock a = y.lock b → a = b
  mode : ∀ l ∈ p.links, modes (y.lock l.host) (y.id l.target) = some l.mode
  registered : ∀ a, p.host a → ∀ i, (modes (y.lock a) i).isSome ↔
    (∃ l ∈ p.links, l.host = a ∧ y.id l.target = i) ∨ (y.lock a, i) ∈ sends

theorem Fabric.withLock_modes {κ : Type} [Ord κ] [Std.TransOrd κ] (f : Fabric κ) (ref : LockRef)
    (change : EndpointLock → EndpointLock) :
    (f.withLock ref change).modes =
      update f.modes ref (change (f.cells ref).lock).writeMode := by
  funext r
  by_cases hr : r = ref
  · subst hr
    funext i
    simp [modes, withLock]
  · funext i
    simp [modes, withLock, hr]

theorem Fabric.withLock_id {κ : Type} [Ord κ] [Std.TransOrd κ] (f : Fabric κ) (ref : LockRef) :
    f.withLock ref id = f := by
  rw [Fabric.withLock, id, update_eq_self]

section attach

variable {κ : Type} [Ord κ] [Std.TransOrd κ] {key : EndpointAddr → κ}
  {p : Plan} {y : Layout} {f : Fabric κ}

/-! ### Attaching -/

def Layout.assign (y : Layout) (t : EndpointAddr) (i : OriginId) : Layout :=
  { y with id := update y.id t i }

omit [Ord κ] [Std.TransOrd κ] in
theorem Layout.assign_id_of_mem {l l' : Link} (hl : l' ∈ p.links) (hfree : l.target ∉ p.targets)
    (i : OriginId) : (y.assign l.target i).id l'.target = y.id l'.target :=
  update_of_ne (fun heq : l'.target = l.target => hfree (heq ▸ mem_map_of_mem hl)) _ _

def Fabric.linked (f : Fabric κ) (key : EndpointAddr → κ) (l : Link) (ref : LockRef) (i : OriginId)
    (sinks : List AttachedSink) (inbox : Channel HostwardChannel) : Fabric κ :=
  { f.withLock ref (·.register i l.target.display l.mode) with
    hostFanout := f.hostFanout.insert (key l.host) sinks
    targetInbox := f.targetInbox.insert (key l.target) inbox
    targetEdges := f.targetEdges.insert (key l.target)
      { registered := some (ref, i)
        writer := if l.mode = .never then none else f.endpointTargetward[key l.host]?
        attached := true }
    originLocks := if l.mode = .never then f.originLocks
      else f.originLocks.insert (key l.target) (ref, i) }

variable (key) in
theorem Fabric.attach_address {l : Link} {ref : LockRef} {i : OriginId} {depth : ℕ}
    (fanout : List AttachedSink) {inbox : Channel HostwardChannel} (slot : TargetEdge)
    (hlock : f.endpointLocks[key l.host]? = some ref)
    (htx : (f.endpointTargetward[key l.host]?).isSome)
    (hroom : (inbox.trySend ⟨i, depth⟩).1 ≠ .full) :
    let r := f.attach (key l.host) (key l.target) l.target i l.mode depth fanout inbox slot
    r.1.inboxFull = false ∧ r.1.registered = some (ref, i) ∧
      r.2.address (key l.target) r.1 =
        f.linked key l ref i (fanout ++ [⟨l.target, ⟨i, depth⟩, f.targetCounters[key l.target]?⟩])
          (inbox.trySend ⟨i, depth⟩).2 := by
  obtain ⟨tx, htx⟩ := Option.isSome_iff_exists.mp htx
  by_cases hmode : l.mode = .never
  · simp [Fabric.attach, attachEdge, hroom, hlock, htx, Fabric.address, Fabric.linked, Fabric.store,
      Fabric.withLock, hmode]
  · simp [Fabric.attach, attachEdge, hroom, hlock, htx, Fabric.address, Fabric.linked, Fabric.store,
      Fabric.withLock, hmode]

theorem Fabric.linked_modes (l : Link) (ref : LockRef) (i : OriginId) (sinks : List AttachedSink)
    (inbox : Channel HostwardChannel) :
    (f.linked key l ref i sinks inbox).modes =
      update f.modes ref (update (f.modes ref) i (some l.mode)) := by
  change (f.withLock ref (·.register i l.target.display l.mode)).modes = _
  rw [Fabric.withLock_modes, EndpointLock.register_writeMode]
  rfl

variable [Std.LawfulEqOrd κ]

theorem Mapped.link (h : Mapped key p y f) (hs : p.Sound) (hkey : p.KeyInj key) {l : Link}
    (hhost : p.host l.host) (htarget : p.target l.target) (hfree : l.target ∉ p.targets)
    {i : OriginId} {sinks fanout : List AttachedSink} {inbox : Channel HostwardChannel}
    (hfanout : f.hostFanout[key l.host]? = some fanout)
    (hsinks : sinks.map AttachedSink.target = fanout.map AttachedSink.target ++ [l.target]) :
    Mapped key (p.link l) (y.assign l.target i)
      (f.linked key l (y.lock l.host) i sinks inbox) := by
  have hne : ∀ l' ∈ p.links, l'.target ≠ l.target := fun l' hl' heq =>
    hfree (heq ▸ mem_map_of_mem hl')
  have hkne : ∀ t, p.target t → t ≠ l.target → key l.target ≠ key t := fun t ht htne hk =>
    htne (hkey _ _ (.inr htarget) (.inr ht) hk).symm
  refine ⟨h.locks, h.targetward, h.fanouts.overwrite (h.fanouts.mem hhost) _,
    h.inboxes.overwrite (h.inboxes.mem htarget) _, h.counters,
    h.slots.overwrite (h.slots.mem htarget) _, h.lockAt, fun a ha => ?_, fun l' hl' => ?_,
    fun t ht htfree => ?_, fun l' hl' => ?_, fun k hk => ?_⟩
  · have hold := h.sinks a ha
    by_cases hal : a = l.host
    · subst hal
      rw [hfanout, Option.map_some, Option.some.injEq] at hold
      simp [Fabric.linked, Plan.link, hsinks, hold]
    · have hk : key l.host ≠ key a := fun hk => hal (hkey _ _ (.inl ha) (.inl hhost) hk.symm)
      simp only [Fabric.linked, Plan.link, Keyed.getElem?_insert_ne hk, hold, filter_append,
        map_append]
      simp [Ne.symm hal]
  · rcases mem_append.mp hl' with hl' | hl'
    · have htne := hne l' hl'
      simp only [Fabric.linked, Keyed.getElem?_insert_ne (hkne _ (hs.target l' hl') htne)]
      rw [h.linked l' hl']
      simp [Layout.assign, htne, Fabric.withLock]
    · rw [mem_singleton.mp hl']
      simp [Fabric.linked, Layout.assign, Fabric.withLock]
  · rw [Plan.targets_link, mem_append, not_or] at htfree
    have htne : t ≠ l.target := by simpa using htfree.2
    simp only [Fabric.linked, Keyed.getElem?_insert_ne (hkne t ht htne)]
    exact h.unlinked t ht htfree.1
  · rcases mem_append.mp hl' with hl' | hl'
    · have htne := hne l' hl'
      have hold := h.addressable l' hl'
      simp only [Fabric.linked, Layout.assign]
      split_ifs with hmode hmode' hmode'
      all_goals simp_all [Keyed.getElem?_insert_ne (hkne _ (hs.target l' hl') htne)]
    · rw [mem_singleton.mp hl']
      simp only [Fabric.linked, Layout.assign, update_self]
      split_ifs with hmode
      · by_contra hsome
        obtain ⟨l', hl', hk⟩ := h.addressed _
          (ExtTreeMap.mem_iff_isSome_getElem?.mpr (Option.ne_none_iff_isSome.mp hsome))
        exact hne l' hl' (hkey _ _ (.inr (hs.target l' hl')) (.inr htarget) hk)
      · simp
  · simp only [Fabric.linked] at hk
    have hmem : k = key l.target ∨ k ∈ f.originLocks := by
      split_ifs at hk with hmode
      · exact .inr hk
      · rw [ExtTreeMap.mem_insert, Std.compare_eq_iff_eq] at hk
        exact hk.imp_left Eq.symm
    rcases hmem with rfl | hk
    · exact ⟨l, by simp [Plan.link], rfl⟩
    · obtain ⟨l', hl', rfl⟩ := h.addressed k hk
      exact ⟨l', by simp [Plan.link, hl'], rfl⟩

omit [Ord κ] [Std.TransOrd κ] [Std.LawfulEqOrd κ] in
theorem update_update_apply (modes : LockRef → OriginId → Option WriteMode) (ref : LockRef)
    (i : OriginId) (m : Option WriteMode) (r : LockRef) (j : OriginId) :
    update modes ref (update (modes ref) i m) r j =
      if r = ref ∧ j = i then m else modes r j := by
  by_cases hr : r = ref
  · subst hr
    by_cases hj : j = i <;> simp [hj]
  · simp [hr]

theorem Enrolled.link {sends : List (LockRef × OriginId)}
    {modes : LockRef → OriginId → Option WriteMode} (h : Enrolled p y sends modes)
    {l : Link} (hhost : p.host l.host) (hfree : l.target ∉ p.targets) {i : OriginId}
    (hi : modes (y.lock l.host) i = none) :
    Enrolled (p.link l) (y.assign l.target i) sends
      (update modes (y.lock l.host)
        (update (modes (y.lock l.host)) i (some l.mode))) := by
  have hid : ∀ l' ∈ p.links, (y.assign l.target i).id l'.target = y.id l'.target := fun _ hl' =>
    Layout.assign_id_of_mem hl' hfree i
  refine ⟨h.inj, fun l' hl' => ?_, fun a ha j => ?_⟩
  · rw [update_update_apply]
    rcases mem_append.mp hl' with hl' | hl'
    · have hmode := h.mode l' hl'
      rw [hid l' hl', if_neg]
      · exact hmode
      · rintro ⟨hr, hj⟩
        rw [← hr, ← hj] at hi
        cases hi.symm.trans hmode
    · rw [mem_singleton.mp hl']
      simp [Layout.assign]
  · have hlinks : (∃ l' ∈ (p.link l).links, l'.host = a ∧ (y.assign l.target i).id l'.target = j) ↔
        (∃ l' ∈ p.links, l'.host = a ∧ y.id l'.target = j) ∨ (l.host = a ∧ i = j) := by
      simp only [Plan.link, mem_append, mem_singleton]
      constructor
      · rintro ⟨l', hl' | rfl, rfl, hj⟩
        · exact .inl ⟨l', hl', rfl, (hid l' hl').symm.trans hj⟩
        · exact .inr ⟨rfl, by simpa [Layout.assign] using hj⟩
      · rintro (⟨l', hl', rfl, hj⟩ | ⟨rfl, rfl⟩)
        · exact ⟨l', .inl hl', rfl, (hid l' hl').trans hj⟩
        · exact ⟨l, .inr rfl, rfl, by simp [Layout.assign]⟩
    have hlock : (y.assign l.target i).lock a = y.lock l.host ↔ l.host = a :=
      ⟨fun hr => (h.inj _ _ ha hhost hr).symm, fun he => he ▸ rfl⟩
    rw [hlinks, update_update_apply]
    split_ifs with hj
    · simp [hlock.mp hj.1, hj.2]
    · refine (h.registered a ha j).trans (or_congr_left (or_iff_left fun hl => hj ?_).symm)
      exact ⟨hlock.mpr hl.1, hl.2.symm⟩

end attach
end SerialNexus
