import SerialNexus.WiringBuild
import SerialNexus.WiringChange

/-! # The wiring between two verbs

`Realised` is what a plan and the daemon's fabric have in common between two critical sections: the
maps (`Mapped`), the registrations (`Enrolled`), and the ids and references handed out so far, so
that the next ones are fresh. -/

namespace SerialNexus

open List
open EndpointAddr (display parse)

structure Realised (p : Plan) (y : Layout) (sends : List (LockRef × OriginId)) (nextEdge : ℕ)
    (f : Fabric String) : Prop where
  sound : p.Sound
  readable : ∀ a, p.Has a → parse a.display = a
  mapped : Mapped display p y f
  enrolled : Enrolled p y sends f.modes
  locks_lt : ∀ a, p.host a → y.lock a < f.nextRef
  ids_lt : ∀ l ∈ p.links, y.id l.target < nextEdge
  ids_nodup : (p.links.map fun l => y.id l.target).Nodup
  apart : nextEdge ≤ sendOriginBase
  sends_ge : ∀ x ∈ sends, sendOriginBase ≤ x.2
  sends_lt : ∀ x ∈ sends, x.1 < f.nextRef

namespace Realised

variable {p q : Plan} {y z : Layout} {sends : List (LockRef × OriginId)} {n : ℕ}
  {f : Fabric String}

theorem key (h : Realised p y sends n f) : p.KeyInj display := by
  intro a b ha hb heq
  rw [← h.readable a ha, heq, h.readable b hb]

variable {i : OriginId} {a : EndpointAddr} {cells : LockRef → LockCell} {l : Link}

theorem id_not_send (h : Realised p y sends n f) (hi : i < n) (r : LockRef) :
    (r, i) ∉ sends := fun hmem =>
  absurd (h.sends_ge _ hmem) (not_le.mpr (hi.trans_le h.apart))

theorem next_free (h : Realised p y sends n f) (hn : n < sendOriginBase) (ha : p.host a) :
    f.modes (y.lock a) n = none := by
  rw [← Option.not_isSome_iff_eq_none, h.enrolled.registered a ha]
  rintro (⟨l, hl, -, hid⟩ | hmem)
  · exact absurd (h.ids_lt l hl) (not_lt.mpr hid.ge)
  · exact absurd (h.sends_ge _ hmem) (not_le.mpr hn)

theorem send_free (h : Realised p y sends n f) (hi : sendOriginBase ≤ i)
    (hsends : ∀ x ∈ sends, x.2 < i) (ha : p.host a) : f.modes (y.lock a) i = none := by
  rw [← Option.not_isSome_iff_eq_none, h.enrolled.registered a ha]
  rintro (⟨l, hl, -, hid⟩ | hmem)
  · exact absurd (hid ▸ h.ids_lt l hl) (not_lt.mpr (h.apart.trans hi))
  · exact absurd (hsends _ hmem) (lt_irrefl i)

theorem skip (h : Realised p y sends n f) {n' : ℕ} (hle : n ≤ n') (hn : n' ≤ sendOriginBase) :
    Realised p y sends n' f :=
  { h with
    ids_lt := fun l hl => (h.ids_lt l hl).trans_le hle
    apart := hn }

theorem empty (hsends : ∀ x ∈ sends, sendOriginBase ≤ x.2) {nextRef : ℕ}
    (hrefs : ∀ x ∈ sends, x.1 < nextRef) (hn : n ≤ sendOriginBase) (y : Layout) :
    Realised .none y sends n (.empty cells nextRef) := by
  have hempty : ∀ {β : Type}, KeyedBy display (fun _ => False) (∅ : Std.ExtTreeMap String β) := by
    intro β k
    simp
  refine ⟨⟨?_, ?_, ?_⟩, ?_, ⟨hempty, hempty, hempty, hempty, hempty, hempty, ?_, ?_, ?_, ?_, ?_, ?_⟩,
    ⟨?_, ?_, ?_⟩, ?_, ?_, ?_, hn, hsends, hrefs⟩
  all_goals simp [Plan.none, Plan.Has, Plan.targets, Fabric.empty]

theorem link (h : Realised p y sends n f) (hhost : p.host l.host) (htarget : p.target l.target)
    (hfree : l.target ∉ p.targets) (hn : n + 1 ≤ sendOriginBase) {sinks fanout : List AttachedSink}
    {inbox : Channel HostwardChannel} (hfanout : f.hostFanout[l.host.display]? = some fanout)
    (hsinks : sinks.map AttachedSink.target = fanout.map AttachedSink.target ++ [l.target]) :
    Realised (p.link l) (y.assign l.target n) sends (n + 1)
      (f.linked display l (y.lock l.host) n sinks inbox) := by
  have hids := Layout.assign_ids hfree h.ids_lt h.ids_nodup
  refine ⟨h.sound.link hhost htarget hfree, h.readable,
    h.mapped.link h.sound h.key hhost htarget hfree hfanout hsinks, ?_, h.locks_lt, hids.1, hids.2,
    hn, h.sends_ge, h.sends_lt⟩
  rw [Fabric.linked_modes]
  exact h.enrolled.link hhost hfree (h.next_free hn hhost)

theorem detach (h : Realised p y sends n f) (hl : l ∈ p.links) :
    Realised (p.unlink l.target) y sends n (f.detach l.host.display l.target.display) := by
  have hparse := h.readable _ (.inr (h.sound.target l hl))
  have hnext : (f.detach l.host.display l.target.display).nextRef = f.nextRef := by
    rw [Fabric.detach_eq h.mapped hl hparse]
    rfl
  refine ⟨h.sound.unlink _, h.readable, h.mapped.unlink h.sound h.key hl hparse, ?_, ?_,
    fun l' hl' => h.ids_lt l' (Plan.mem_unlink.mp hl').1,
    h.ids_nodup.sublist (filter_sublist.map _), h.apart, h.sends_ge, ?_⟩
  · rw [Fabric.detach_modes h.mapped hl hparse]
    refine h.enrolled.unlink h.sound hl (fun l' hl' hne heq => hne ?_)
      (h.id_not_send (h.ids_lt l hl) _)
    rw [inj_on_of_nodup_map h.ids_nodup hl' hl heq]
  · rw [hnext]
    exact h.locks_lt
  · rw [hnext]
    exact h.sends_lt

theorem detachAll (h : Realised p y sends n f) (ls : List Link) (hls : ∀ l ∈ ls, l ∈ p.links)
    (hnd : (ls.map Link.target).Nodup) :
    Realised { p with links := p.links.filter (·.target ∉ ls.map Link.target) } y sends n
      (ls.foldl (fun f l => f.detach l.host.display l.target.display) f) := by
  induction ls generalizing p f with
  | nil => simpa using h
  | cons l ls ih =>
    rw [forall_mem_cons] at hls
    obtain ⟨hl, hnd⟩ := nodup_cons.mp hnd
    have hls' : ∀ l' ∈ ls, l' ∈ (p.unlink l.target).links := fun l' hl' =>
      Plan.mem_unlink.mpr ⟨hls.2 l' hl', fun heq => hl (heq ▸ mem_map_of_mem hl')⟩
    have hrest := ih (h.detach hls.1) hls' hnd
    have hlinks : p.links.filter (·.target ∉ (l :: ls).map Link.target) =
        (p.unlink l.target).links.filter (·.target ∉ ls.map Link.target) := by
      rw [Plan.unlink, filter_filter]
      refine filter_congr fun l' _ => Bool.eq_iff_iff.mpr ?_
      simp only [map_cons, mem_cons, not_or, decide_eq_true_eq, Bool.and_eq_true]
      exact and_comm
    rw [hlinks]
    exact hrest

theorem absorb (h : Realised p y sends n f) {w : Wiring} (hw : Wired f.cells f.nextRef sends q z w)
    (hq : q.Sound) (hread : ∀ a, q.Has a → parse a.display = a)
    (hdisj : ∀ a, p.Has a → ¬ q.Has a) (hlinks : p.links = [] ∨ q.links = [])
    (hn : max n w.nextOrigin ≤ sendOriginBase) :
    Realised (p.union q) (y.merge q z) sends (max n w.nextOrigin) (f.absorb w.fabric) := by
  have hread' : ∀ a, (p.union q).Has a → parse a.display = a := by
    rintro a ((ha | ha) | (ha | ha))
    · exact h.readable a (.inl ha)
    · exact hread a (.inl ha)
    · exact h.readable a (.inr ha)
    · exact hread a (.inr ha)
  have hkey : (p.union q).KeyInj display := fun a b ha hb heq => by
    rw [← hread' a ha, heq, hread' b hb]
  have hidp : ∀ l ∈ p.links, (y.merge q z).id l.target = y.id l.target := fun l hl =>
    (Layout.merge_left (hdisj _ (.inr (h.sound.target l hl)))).2
  have hidq : ∀ l ∈ q.links, (y.merge q z).id l.target = z.id l.target := fun l hl =>
    (Layout.merge_right (.inr (hq.target l hl))).2
  refine ⟨h.sound.union hq hdisj, hread', h.mapped.absorb hw.mapped h.sound hq hdisj hkey,
    h.enrolled.absorb hw.enrolled h.sound hq hdisj (fun a ha => ?_) fun a b ha hb => ?_, ?_, ?_, ?_,
    hn, h.sends_ge, fun x hx => (h.sends_lt x hx).trans_le hw.grown⟩
  · funext i
    change (w.fabric.cells (y.lock a)).lock.writeMode i = _
    rw [hw.old _ (h.locks_lt a ha)]
    rfl
  · exact ((h.locks_lt a ha).trans_le (hw.low b hb)).ne
  · rintro a (ha | ha)
    · rw [(Layout.merge_left (hdisj a (.inl ha))).1]
      exact (h.locks_lt a ha).trans_le hw.grown
    · rw [(Layout.merge_right (.inl ha)).1]
      exact hw.high a ha
  · intro l hl
    rcases mem_append.mp hl with hl | hl
    · rw [hidp l hl]
      exact (h.ids_lt l hl).trans_le (le_max_left _ _)
    · rw [hidq l hl]
      exact (hw.ids_lt l hl).trans_le (le_max_right _ _)
  · have hmap : ((p.union q).links.map fun l => (y.merge q z).id l.target) =
        (p.links.map fun l => y.id l.target) ++ q.links.map fun l => z.id l.target := by
      rw [Plan.union, map_append, map_congr_left hidp, map_congr_left hidq]
    rw [hmap]
    rcases hlinks with hnil | hnil
    · rw [hnil]
      exact hw.ids_nodup
    · rw [hnil, map_nil, append_nil]
      exact h.ids_nodup

theorem dropEndpoints (h : Realised p y sends n f) {name : String} {eps : List String}
    (heps : ∀ a, p.Has a → (a.display ∈ eps ↔ a.node = name))
    (hlinks : ∀ l ∈ p.links, l.host.node ≠ name ∧ l.target.node ≠ name) :
    Realised (p.without name) y sends n (f.dropEndpoints eps) := by
  obtain ⟨cells, hcells, hdrop⟩ := Fabric.dropEndpoints_eq h.mapped h.sound h.enrolled.inj heps hlinks
  refine ⟨⟨fun l hl => ⟨h.sound.host l hl, (hlinks l hl).1⟩,
      fun l hl => ⟨h.sound.target l hl, (hlinks l hl).2⟩, h.sound.nodup⟩,
    fun a ha => h.readable a (ha.imp And.left And.left),
    h.mapped.dropEndpoints h.sound h.enrolled.inj heps hlinks, ?_, ?_, h.ids_lt, h.ids_nodup, h.apart,
    h.sends_ge, ?_⟩
  · have hmodes : (f.dropEndpoints eps).modes = f.modes := by
      rw [hdrop]
      exact Fabric.modes_congr hcells
    rw [hmodes]
    exact h.enrolled.without name
  · rw [hdrop]
    exact fun a ha => h.locks_lt a ha.1
  · rw [hdrop]
    exact h.sends_lt

theorem withCells (h : Realised p y sends n f)
    (hcells : ∀ r, (cells r).lock.writeMode = (f.cells r).lock.writeMode) :
    Realised p y sends n { f with cells } := by
  have hmodes : Fabric.modes { f with cells } = f.modes := by
    funext r i
    exact congrFun (hcells r) i
  exact
    { h with
      mapped := h.mapped.withCells cells
      enrolled := hmodes ▸ h.enrolled }

theorem withInbox (h : Realised p y sends n f) (k : String)
    (change : Channel HostwardChannel → Channel HostwardChannel) :
    Realised p y sends n { f with targetInbox := f.targetInbox.modify k change } :=
  { h with
    mapped := { h.mapped with inboxes := h.mapped.inboxes.modify k change } }

theorem send (h : Realised p y sends n f) (hi : sendOriginBase ≤ i) (hsends : ∀ x ∈ sends, x.2 < i)
    (ha : p.host a) (label : String) (mode : WriteMode) :
    Realised p y (sends ++ [(y.lock a, i)]) n
      (f.withLock (y.lock a) (·.register i label mode)) := by
  have hmapped : Mapped display p y (f.withLock (y.lock a) (·.register i label mode)) :=
    h.mapped.withCells _
  refine ⟨h.sound, h.readable, hmapped, ?_, h.locks_lt, h.ids_lt, h.ids_nodup, h.apart, ?_, ?_⟩
  · rw [Fabric.withLock_modes, EndpointLock.register_writeMode]
    exact h.enrolled.send (h.send_free hi hsends ha) mode
  · intro x hx
    rcases mem_append.mp hx with hx | hx
    · exact h.sends_ge x hx
    · rw [mem_singleton.mp hx]
      exact hi
  · intro x hx
    rcases mem_append.mp hx with hx | hx
    · exact h.sends_lt x hx
    · rw [mem_singleton.mp hx]
      exact h.locks_lt a ha

theorem endSend (h : Realised p y sends n f) {sends' : List (LockRef × OriginId)} {ref : LockRef}
    (hmem : (ref, i) ∈ sends) (hsends : ∀ x, x ∈ sends' ↔ x ∈ sends ∧ x ≠ (ref, i)) :
    Realised p y sends' n (f.withLock ref fun l => (l.unregister i).2) := by
  have hmapped : Mapped display p y (f.withLock ref fun l => (l.unregister i).2) :=
    h.mapped.withCells _
  refine ⟨h.sound, h.readable, hmapped, ?_, h.locks_lt, h.ids_lt, h.ids_nodup, h.apart,
    fun x hx => h.sends_ge x ((hsends x).mp hx).1, fun x hx => h.sends_lt x ((hsends x).mp hx).1⟩
  rw [Fabric.withLock_modes, EndpointLock.unregister_writeMode]
  refine h.enrolled.endSend (fun l hl heq => ?_) hsends
  exact h.id_not_send (h.ids_lt l hl) ref (heq ▸ hmem)

end Realised

def GraphConfig.OwnsEndpoint (c : GraphConfig) (a : EndpointAddr) : Prop :=
  ∃ n ∈ c.nodes, ∃ ep ∈ n.shape.endpoints, a = ⟨n.name, ep.name⟩

theorem GraphConfig.Valid.noSlash_of_owns {c : GraphConfig} {loopbackIp : String → Option Bool}
    (hv : c.Valid loopbackIp) {a : EndpointAddr} (ha : c.OwnsEndpoint a) : '/' ∉ a.node.toList := by
  obtain ⟨n, hn, ep, hep, rfl⟩ := ha
  exact (hv.legalName (mem_map_of_mem hn)).noSlash

theorem Fabric.detach_hostFanout (f : Fabric String) (host target : String) :
    (f.detach host target).hostFanout =
      f.hostFanout.modify host (·.filter (·.target ≠ parse target)) := by
  unfold Fabric.detach
  split <;> rfl

theorem display_names_endpoint {c : GraphConfig} {loopbackIp : String → Option Bool}
    (β : Type) (hc : c.validate loopbackIp = []) {a b : EndpointAddr} (ha : c.OwnsEndpoint a)
    (hb : c.OwnsEndpoint b) :
    parse a.display = a ∧ (a.display = b.display → a = b) ∧
      (∀ (m : Std.ExtTreeMap String β) (n : Std.ExtTreeMap EndpointAddr β), (∀ x ∈ n, c.OwnsEndpoint x) →
        a ∈ n → (Fabric.rekey m n)[a.display]? = n[a]?) ∧
      ∀ (f : Fabric String) (k : String), (f.detach b.display a.display).hostFanout[k]? =
        if k = b.display then f.hostFanout[k]?.map (·.filter (·.target ≠ a)) else f.hostFanout[k]? := by
  have hv := (GraphConfig.validate_eq_nil_iff loopbackIp).mp hc
  have hslash : ∀ x, c.OwnsEndpoint x → '/' ∉ x.node.toList := fun x hx => hv.noSlash_of_owns hx
  have hinj : ∀ x y, c.OwnsEndpoint x → c.OwnsEndpoint y → x.display = y.display → x = y :=
    fun x y hx hy => EndpointAddr.display_inj (hslash x hx) (hslash y hy)
  have hparse := EndpointAddr.parse_display (hslash a ha)
  refine ⟨hparse, hinj a b ha hb, fun m n hn han => ?_, fun f k => ?_⟩
  · exact Fabric.rekey_new (fun x y hx hy => hinj x y (hn x hx) (hn y hy)) han
  · rw [Fabric.detach_hostFanout, hparse]
    split_ifs with hk
    · rw [hk, Std.ExtTreeMap.getElem?_modify_self]
    · exact Keyed.getElem?_modify_ne (Ne.symm hk) _

def muxedPort : GraphConfig where
  nodes := [.serial { name := "port", device := "/dev/ttyUSB0" },
    .codec { name := "mux", codec := "lines", channels := ["con"] }]

theorem display_names_endpoint_muxed :
    parse "mux/con" = ⟨"mux", "con"⟩ ∧
      ∀ f : Fabric String, (f.detach "port" "mux").hostFanout["port"]? =
        f.hostFanout["port"]?.map (·.filter (·.target ≠ .ofNode "mux")) := by
  have hc : muxedPort.validate (fun _ => none) = [] := by decide +kernel
  have hport : muxedPort.OwnsEndpoint (.ofNode "port") := ⟨_, mem_cons_self, _, mem_cons_self, rfl⟩
  have hmux : muxedPort.OwnsEndpoint (.ofNode "mux") :=
    ⟨_, mem_cons_of_mem _ mem_cons_self, _, mem_cons_self, rfl⟩
  have hcon : muxedPort.OwnsEndpoint ⟨"mux", "con"⟩ :=
    ⟨_, mem_cons_of_mem _ mem_cons_self, _, mem_cons_of_mem _ mem_cons_self, rfl⟩
  have hdetach := (display_names_endpoint Unit hc hmux hport).2.2.2
  exact ⟨(display_names_endpoint Unit hc hcon hport).1, fun f => hdetach f "port"⟩

end SerialNexus
