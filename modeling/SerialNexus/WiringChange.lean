import SerialNexus.WiringPlan
import SerialNexus.Daemon

/-! # Changing a wiring

What the daemon's operations on its fabric do to the plan it realises:

* `detach_edge_runtime` takes one link out;
* `absorb_wiring` adds a freshly built wiring, re-keyed by display strings;
* the end of `remove-node` drops the endpoints of a node that has no links left. -/

namespace SerialNexus

open List Function
open Std (ExtTreeMap)
open EndpointAddr (display parse)

variable {p q : Plan} {y z : Layout} {f : Fabric String} {sends : List (LockRef × OriginId)}
  {modes : LockRef → OriginId → Option WriteMode}

theorem Plan.Sound.link_ext (hs : p.Sound) {l l' : Link} (hl : l ∈ p.links) (hl' : l' ∈ p.links)
    (h : l'.target = l.target) : l' = l :=
  inj_on_of_nodup_map hs.nodup hl' hl h

theorem Mapped.withCells {κ : Type} [Ord κ] [Std.TransOrd κ] {key : EndpointAddr → κ}
    {f : Fabric κ} (h : Mapped key p y f) (cells : LockRef → LockCell) :
    Mapped key p y { f with cells } :=
  ⟨h.locks, h.targetward, h.fanouts, h.inboxes, h.counters, h.slots, h.lockAt, h.sinks, h.linked,
    h.unlinked, h.addressable, h.addressed⟩

section detach

variable {l : Link}

/-! ### Detaching -/

theorem Plan.Sound.unlink (hs : p.Sound) (t : EndpointAddr) : (p.unlink t).Sound where
  host l hl := hs.host l (mem_of_mem_filter hl)
  target l hl := hs.target l (mem_of_mem_filter hl)
  nodup := hs.nodup.sublist (filter_sublist.map _)

theorem Plan.mem_unlink {l' : Link} {t : EndpointAddr} :
    l' ∈ (p.unlink t).links ↔ l' ∈ p.links ∧ l'.target ≠ t := by
  simp [Plan.unlink, mem_filter]

theorem Fabric.detach_eq (h : Mapped display p y f) (hl : l ∈ p.links)
    (hparse : parse l.target.display = l.target) :
    f.detach l.host.display l.target.display =
      { f.withLock (y.lock l.host) fun k => (k.unregister (y.id l.target)).2 with
        hostFanout := f.hostFanout.modify l.host.display (·.filter (·.target ≠ l.target))
        originLocks := f.originLocks.erase l.target.display
        targetEdges := f.targetEdges.modify l.target.display fun _ => {} } := by
  rw [Fabric.detach, h.linked l hl, hparse]
  rfl

theorem Fabric.detach_modes (h : Mapped display p y f) (hl : l ∈ p.links)
    (hparse : parse l.target.display = l.target) :
    (f.detach l.host.display l.target.display).modes =
      update f.modes (y.lock l.host)
        (update (f.modes (y.lock l.host)) (y.id l.target) none) := by
  rw [Fabric.detach_eq h hl hparse]
  change (f.withLock (y.lock l.host) fun k => (k.unregister (y.id l.target)).2).modes = _
  rw [Fabric.withLock_modes, EndpointLock.unregister_writeMode]
  rfl

theorem Mapped.unlink (h : Mapped display p y f) (hs : p.Sound) (hkey : p.KeyInj display)
    (hl : l ∈ p.links) (hparse : parse l.target.display = l.target) :
    Mapped display (p.unlink l.target) y (f.detach l.host.display l.target.display) := by
  have hkne : ∀ t, p.target t → t ≠ l.target → l.target.display ≠ t.display := fun t ht hne hk =>
    hne (hkey _ _ (.inr (hs.target l hl)) (.inr ht) hk).symm
  rw [Fabric.detach_eq h hl hparse]
  refine ⟨h.locks, h.targetward, h.fanouts.modify _ _, h.inboxes, h.counters, h.slots.modify _ _,
    h.lockAt, fun a ha => ?_, fun l' hl' => ?_, fun t ht htfree => ?_, fun l' hl' => ?_,
    fun k hk => ?_⟩
  · have hold := h.sinks a ha
    have hrest : ((p.unlink l.target).links.filter (·.host = a)).map Link.target =
        ((p.links.filter (·.host = a)).map Link.target).filter (· ≠ l.target) := by
      rw [filter_map, Plan.unlink, filter_filter, filter_filter]
      simp only [Function.comp_apply, Bool.and_comm]
    rw [hrest]
    by_cases hal : l.host = a
    · subst hal
      rw [ExtTreeMap.getElem?_modify_self, Option.map_map]
      obtain ⟨fanout, hfan, hmap⟩ := Option.map_eq_some_iff.mp hold
      rw [hfan, ← hmap, Option.map_some, Function.comp_apply, filter_map]
      rfl
    · have hk : l.host.display ≠ a.display := fun hk =>
        hal (hkey _ _ (.inl (hs.host l hl)) (.inl ha) hk)
      rw [Keyed.getElem?_modify_ne hk]
      refine hold.trans (congrArg some (filter_eq_self.mpr ?_).symm)
      intro t ht
      obtain ⟨l', hl', rfl⟩ := mem_map.mp ht
      obtain ⟨hmem, hhost⟩ := mem_filter.mp hl'
      refine decide_eq_true fun heq => hal ?_
      rw [← hs.link_ext hl hmem heq]
      simpa using hhost
  · obtain ⟨hmem, hne⟩ := Plan.mem_unlink.mp hl'
    rw [Keyed.getElem?_modify_ne (hkne _ (hs.target l' hmem) hne)]
    exact h.linked l' hmem
  · by_cases htl : t = l.target
    · subst htl
      rw [ExtTreeMap.getElem?_modify_self, h.linked l hl]
      rfl
    · rw [Keyed.getElem?_modify_ne (hkne t ht htl)]
      refine h.unlinked t ht fun hmem => htfree ?_
      obtain ⟨l', hl', rfl⟩ := mem_map.mp hmem
      exact mem_map_of_mem (Plan.mem_unlink.mpr ⟨hl', htl⟩)
  · obtain ⟨hmem, hne⟩ := Plan.mem_unlink.mp hl'
    rw [Keyed.getElem?_erase_ne (hkne _ (hs.target l' hmem) hne)]
    exact h.addressable l' hmem
  · rw [ExtTreeMap.mem_erase, Std.compare_eq_iff_eq.ne] at hk
    obtain ⟨l', hl', rfl⟩ := h.addressed k hk.2
    exact ⟨l', Plan.mem_unlink.mpr ⟨hl', fun heq => hk.1 (heq ▸ rfl)⟩, rfl⟩

theorem Enrolled.unlink (h : Enrolled p y sends modes) (hs : p.Sound) (hl : l ∈ p.links)
    (hid : ∀ l' ∈ p.links, l'.target ≠ l.target → y.id l'.target ≠ y.id l.target)
    (hsend : (y.lock l.host, y.id l.target) ∉ sends) :
    Enrolled (p.unlink l.target) y sends
      (update modes (y.lock l.host)
        (update (modes (y.lock l.host)) (y.id l.target) none)) := by
  refine ⟨h.inj, fun l' hl' => ?_, fun a ha i => ?_⟩
  · obtain ⟨hmem, hne⟩ := Plan.mem_unlink.mp hl'
    rw [update_update_apply, if_neg fun he => hid l' hmem hne he.2, h.mode l' hmem]
  · rw [update_update_apply]
    split_ifs with hi
    · rw [hi.1, hi.2]
      refine iff_of_false nofun (not_or.mpr ⟨?_, hsend⟩)
      rintro ⟨l', hl', -, heq⟩
      obtain ⟨hmem, hne⟩ := Plan.mem_unlink.mp hl'
      exact hid l' hmem hne heq
    · rw [h.registered a ha i]
      refine or_congr_left ⟨?_, ?_⟩
      · rintro ⟨l', hl', rfl, rfl⟩
        refine ⟨l', Plan.mem_unlink.mpr ⟨hl', fun heq => hi ?_⟩, rfl, rfl⟩
        rw [hs.link_ext hl hl' heq]
        exact ⟨rfl, rfl⟩
      · rintro ⟨l', hl', hrest⟩
        exact ⟨l', (Plan.mem_unlink.mp hl').1, hrest⟩

end detach

section absorb

variable {w : Fabric EndpointAddr} {β : Type} {P Q : EndpointAddr → Prop}
  {m : ExtTreeMap String β} {n : ExtTreeMap EndpointAddr β}

/-! ### Absorbing -/

def Plan.union (p q : Plan) : Plan where
  host a := p.host a ∨ q.host a
  target a := p.target a ∨ q.target a
  links := p.links ++ q.links

open Classical in
noncomputable def Layout.merge (y : Layout) (q : Plan) (z : Layout) : Layout where
  lock a := if q.Has a then z.lock a else y.lock a
  id a := if q.Has a then z.id a else y.id a

theorem Plan.Sound.union (hp : p.Sound) (hq : q.Sound) (hdisj : ∀ a, p.Has a → ¬ q.Has a) :
    (p.union q).Sound where
  host l hl := (mem_append.mp hl).imp (hp.host l) (hq.host l)
  target l hl := (mem_append.mp hl).imp (hp.target l) (hq.target l)
  nodup := by
    rw [Plan.targets, Plan.union, map_append]
    refine hp.nodup.append hq.nodup fun t htp htq => ?_
    obtain ⟨l, hl, rfl⟩ := mem_map.mp htp
    obtain ⟨l', hl', heq⟩ := mem_map.mp htq
    exact hdisj _ (.inr (hp.target l hl)) (heq ▸ .inr (hq.target l' hl'))

theorem Fabric.getElem?_rekey (hinj : ∀ a b, a ∈ n → b ∈ n → a.display = b.display → a = b)
    (k : String) :
    (Fabric.rekey m n)[k]? = ((n.toList.find? (·.1.display = k)).map Prod.snd).or m[k]? := by
  refine Keyed.getElem?_foldl_insert (fun x : EndpointAddr × β => x.1.display) Prod.snd ?_ m k
  have hkeys : n.toList.map (fun x => x.1.display) = n.keys.map display := by
    rw [← ExtTreeMap.map_fst_toList_eq_keys, map_map]
    rfl
  rw [hkeys]
  exact List.Nodup.map_on (fun a ha b hb => hinj a b (ExtTreeMap.mem_keys.mp ha)
    (ExtTreeMap.mem_keys.mp hb)) ExtTreeMap.nodup_keys

variable {a : EndpointAddr} {κ : Type} {key : EndpointAddr → κ}

theorem Fabric.rekey_new (hinj : ∀ a b, a ∈ n → b ∈ n → a.display = b.display → a = b)
    (ha : a ∈ n) : (Fabric.rekey m n)[a.display]? = n[a]? := by
  rw [Fabric.getElem?_rekey hinj]
  cases hfind : n.toList.find? (·.1.display = a.display) with
  | none =>
    obtain ⟨v, hv⟩ := Option.isSome_iff_exists.mp (ExtTreeMap.mem_iff_isSome_getElem?.mp ha)
    have := find?_eq_none.mp hfind (a, v)
      (ExtTreeMap.mem_toList_iff_getElem?_eq_some.mpr hv)
    simp at this
  | some x =>
    have hx := ExtTreeMap.mem_toList_iff_getElem?_eq_some.mp (mem_of_find?_eq_some hfind)
    have hmem : x.1 ∈ n := ExtTreeMap.mem_iff_isSome_getElem?.mpr (by rw [hx]; rfl)
    have hk : x.1.display = a.display := by simpa using find?_some hfind
    rw [← hinj _ _ hmem ha hk, hx]
    rfl

theorem Fabric.rekey_old (hinj : ∀ a b, a ∈ n → b ∈ n → a.display = b.display → a = b)
    {k : String} (hk : ∀ a ∈ n, a.display ≠ k) : (Fabric.rekey m n)[k]? = m[k]? := by
  have hnone : n.toList.find? (·.1.display = k) = none := by
    refine find?_eq_none.mpr fun x hx => ?_
    have hmem : x.1 ∈ n := ExtTreeMap.mem_iff_isSome_getElem?.mpr
      (by rw [ExtTreeMap.mem_toList_iff_getElem?_eq_some.mp hx]; rfl)
    simpa using hk x.1 hmem
  rw [Fabric.getElem?_rekey hinj, hnone]
  rfl

theorem KeyedBy.rekey (hm : KeyedBy display P m) (hn : KeyedBy id Q n)
    (hinj : ∀ a b, Q a → Q b → a.display = b.display → a = b) :
    KeyedBy display (fun a => P a ∨ Q a) (Fabric.rekey m n) := by
  have hmem : ∀ a, a ∈ n ↔ Q a := fun a => (hn a).trans ⟨fun ⟨_, hb, rfl⟩ => hb, fun h => ⟨a, h, rfl⟩⟩
  have hinj' : ∀ a b, a ∈ n → b ∈ n → a.display = b.display → a = b := fun a b ha hb =>
    hinj a b ((hmem a).mp ha) ((hmem b).mp hb)
  intro k
  by_cases hk : ∃ a ∈ n, a.display = k
  · obtain ⟨a, ha, rfl⟩ := hk
    rw [ExtTreeMap.mem_iff_isSome_getElem?, Fabric.rekey_new hinj' ha,
      ← ExtTreeMap.mem_iff_isSome_getElem?]
    exact iff_of_true ha ⟨a, .inr ((hmem a).mp ha), rfl⟩
  · rw [ExtTreeMap.mem_iff_isSome_getElem?, Fabric.rekey_old hinj' fun a ha hd => hk ⟨a, ha, hd⟩,
      ← ExtTreeMap.mem_iff_isSome_getElem?, hm k]
    constructor
    · rintro ⟨a, ha, rfl⟩
      exact ⟨a, .inl ha, rfl⟩
    · rintro ⟨a, ha | ha, rfl⟩
      · exact ⟨a, ha, rfl⟩
      · exact absurd ⟨a, (hmem a).mpr ha, rfl⟩ hk

def Owned {κ : Type} [Ord κ] [Std.TransOrd κ] (p : Plan) (key : EndpointAddr → κ)
    (m : ExtTreeMap κ β) : Prop :=
  ∀ k ∈ m, ∃ a, p.Has a ∧ key a = k

theorem KeyedBy.owned [Ord κ] [Std.TransOrd κ] {m : ExtTreeMap κ β} (h : KeyedBy key P m)
    (hP : ∀ a, P a → p.Has a) : Owned p key m :=
  fun k hk => ((h k).mp hk).imp fun a ha => ha.imp_left (hP a)

theorem Mapped.owned [Ord κ] [Std.TransOrd κ] {f : Fabric κ} (h : Mapped key p y f) (hs : p.Sound) :
    Owned p key f.originLocks := by
  intro k hk
  obtain ⟨l, hl, rfl⟩ := h.addressed k hk
  exact ⟨l.target, .inr (hs.target l hl), rfl⟩

theorem Owned.has (h : Owned q id n) (ha : a ∈ n) : q.Has a := by
  obtain ⟨_, hb, rfl⟩ := h a ha
  exact hb

theorem Fabric.rekey_right (hkey : (p.union q).KeyInj display) (hdisj : ∀ a, p.Has a → ¬ q.Has a)
    (hm : Owned p display m) (hn : Owned q id n) (ha : q.Has a) :
    (Fabric.rekey m n)[a.display]? = n[a]? := by
  have hinj : ∀ a b, q.Has a → q.Has b → a.display = b.display → a = b := fun a b ha hb =>
    hkey a b (ha.imp .inr .inr) (hb.imp .inr .inr)
  have hinj' : ∀ a b, a ∈ n → b ∈ n → a.display = b.display → a = b := fun a b ha hb =>
    hinj a b (hn.has ha) (hn.has hb)
  by_cases hmem : a ∈ n
  · exact Fabric.rekey_new hinj' hmem
  · rw [Fabric.rekey_old hinj' fun b hb hd => hmem (hinj b a (hn.has hb) ha hd ▸ hb)]
    have hnone : a.display ∉ m := by
      intro hk
      obtain ⟨b, hb, hd⟩ := hm _ hk
      exact hdisj b hb (hkey b a (hb.imp .inl .inl) (ha.imp .inr .inr) hd ▸ ha)
    rw [ExtTreeMap.getElem?_eq_none hnone, ExtTreeMap.getElem?_eq_none hmem]

theorem Fabric.rekey_left (hkey : (p.union q).KeyInj display) (hdisj : ∀ a, p.Has a → ¬ q.Has a)
    (hn : Owned q id n) (ha : p.Has a) : (Fabric.rekey m n)[a.display]? = m[a.display]? := by
  refine Fabric.rekey_old (fun b c hb hc => hkey b c ((hn.has hb).imp .inr .inr)
    ((hn.has hc).imp .inr .inr)) fun b hb hd => ?_
  exact hdisj a ha (hkey b a ((hn.has hb).imp .inr .inr) (ha.imp .inl .inl) hd ▸ hn.has hb)

theorem Plan.union_filter_left (hdisj : ∀ a, p.Has a → ¬ q.Has a) (hq : q.Sound) (ha : p.host a) :
    (p.union q).links.filter (·.host = a) = p.links.filter (·.host = a) := by
  have hnil : q.links.filter (·.host = a) = [] := by
    refine filter_eq_nil_iff.mpr fun l hl => ?_
    have : l.host ≠ a := fun heq => hdisj a (.inl ha) (.inl (heq ▸ hq.host l hl))
    simpa using this
  rw [Plan.union, filter_append, hnil, append_nil]

theorem Plan.union_filter_right (hdisj : ∀ a, p.Has a → ¬ q.Has a) (hp : p.Sound) (ha : q.host a) :
    (p.union q).links.filter (·.host = a) = q.links.filter (·.host = a) := by
  have hnil : p.links.filter (·.host = a) = [] := by
    refine filter_eq_nil_iff.mpr fun l hl => ?_
    have : l.host ≠ a := fun heq => hdisj a (.inl (heq ▸ hp.host l hl)) (.inl ha)
    simpa using this
  rw [Plan.union, filter_append, hnil, nil_append]

theorem Layout.merge_right (ha : q.Has a) :
    (y.merge q z).lock a = z.lock a ∧ (y.merge q z).id a = z.id a :=
  ⟨if_pos ha, if_pos ha⟩

theorem Layout.merge_left (ha : ¬ q.Has a) :
    (y.merge q z).lock a = y.lock a ∧ (y.merge q z).id a = y.id a :=
  ⟨if_neg ha, if_neg ha⟩

theorem Mapped.absorb (hf : Mapped display p y f) (hw : Mapped id q z w) (hp : p.Sound)
    (hq : q.Sound) (hdisj : ∀ a, p.Has a → ¬ q.Has a) (hkey : (p.union q).KeyInj display) :
    Mapped display (p.union q) (y.merge q z) (f.absorb w) := by
  have hinjh : ∀ a b, q.host a → q.host b → a.display = b.display → a = b := fun a b ha hb =>
    hkey a b (.inl (.inr ha)) (.inl (.inr hb))
  have hinjt : ∀ a b, q.target a → q.target b → a.display = b.display → a = b := fun a b ha hb =>
    hkey a b (.inr (.inr ha)) (.inr (.inr hb))
  have hR : ∀ {β : Type} {m : ExtTreeMap String β} {n : ExtTreeMap EndpointAddr β}
      {a : EndpointAddr}, Owned p display m → Owned q id n → q.Has a →
      (Fabric.rekey m n)[a.display]? = n[a]? := fun hm hn => Fabric.rekey_right hkey hdisj hm hn
  have hL : ∀ {β : Type} {m : ExtTreeMap String β} {n : ExtTreeMap EndpointAddr β}
      {a : EndpointAddr}, Owned q id n → p.Has a →
      (Fabric.rekey m n)[a.display]? = m[a.display]? := fun hn => Fabric.rekey_left hkey hdisj hn
  have hhostp : ∀ a, p.host a → p.Has a := fun _ => .inl
  have hhostq : ∀ a, q.host a → q.Has a := fun _ => .inl
  have htargetp : ∀ a, p.target a → p.Has a := fun _ => .inr
  have htargetq : ∀ a, q.target a → q.Has a := fun _ => .inr
  have hleft : ∀ a, p.Has a → (y.merge q z).lock a = y.lock a ∧ (y.merge q z).id a = y.id a :=
    fun a ha => Layout.merge_left (hdisj a ha)
  refine ⟨hf.locks.rekey hw.locks hinjh, hf.targetward.rekey hw.targetward hinjh,
    hf.fanouts.rekey hw.fanouts hinjh, hf.inboxes.rekey hw.inboxes hinjt,
    hf.counters.rekey hw.counters hinjt, hf.slots.rekey hw.slots hinjt, ?_, ?_, ?_, ?_, ?_, ?_⟩
  · rintro a (ha | ha)
    · rw [(hleft a (.inl ha)).1]
      exact (hL (hw.locks.owned hhostq) (.inl ha)).trans (hf.lockAt a ha)
    · rw [(Layout.merge_right (.inl ha)).1]
      exact (hR (hf.locks.owned hhostp) (hw.locks.owned hhostq) (.inl ha)).trans (hw.lockAt a ha)
  · rintro a (ha | ha)
    · rw [Plan.union_filter_left hdisj hq ha, ← hf.sinks a ha]
      exact congrArg (Option.map _) (hL (hw.fanouts.owned hhostq) (.inl ha))
    · rw [Plan.union_filter_right hdisj hp ha, ← hw.sinks a ha]
      exact congrArg (Option.map _)
        (hR (hf.fanouts.owned hhostp) (hw.fanouts.owned hhostq) (.inl ha))
  · intro l hl
    rcases mem_append.mp hl with hl | hl
    · have hhost := hhostp _ (hp.host l hl)
      have htarget := htargetp _ (hp.target l hl)
      have htx : (f.absorb w).endpointTargetward[l.host.display]? =
          f.endpointTargetward[l.host.display]? := hL (hw.targetward.owned hhostq) hhost
      rw [(hleft _ hhost).1, (hleft _ htarget).2, htx]
      exact (hL (hw.slots.owned htargetq) htarget).trans (hf.linked l hl)
    · have hhost := hhostq _ (hq.host l hl)
      have htarget := htargetq _ (hq.target l hl)
      have htx : (f.absorb w).endpointTargetward[l.host.display]? = w.endpointTargetward[l.host]? :=
        hR (hf.targetward.owned hhostp) (hw.targetward.owned hhostq) hhost
      rw [(Layout.merge_right hhost).1, (Layout.merge_right htarget).2, htx]
      exact (hR (hf.slots.owned htargetp) (hw.slots.owned htargetq) htarget).trans (hw.linked l hl)
  · rintro t (ht | ht) hfree
    · refine (hL (hw.slots.owned htargetq) (.inr ht)).trans (hf.unlinked t ht fun hmem => hfree ?_)
      simpa [Plan.targets, Plan.union] using .inl (mem_map.mp hmem)
    · refine (hR (hf.slots.owned htargetp) (hw.slots.owned htargetq) (.inr ht)).trans
        (hw.unlinked t ht fun hmem => hfree ?_)
      simpa [Plan.targets, Plan.union] using .inr (mem_map.mp hmem)
  · intro l hl
    rcases mem_append.mp hl with hl | hl
    · have htarget := htargetp _ (hp.target l hl)
      rw [(hleft _ (hhostp _ (hp.host l hl))).1, (hleft _ htarget).2]
      exact (hL (hw.owned hq) htarget).trans (hf.addressable l hl)
    · have htarget := htargetq _ (hq.target l hl)
      rw [(Layout.merge_right (hhostq _ (hq.host l hl))).1, (Layout.merge_right htarget).2]
      exact (hR (hf.owned hp) (hw.owned hq) htarget).trans (hw.addressable l hl)
  · intro k hk
    by_cases hnew : ∃ a ∈ w.originLocks, a.display = k
    · obtain ⟨a, ha, rfl⟩ := hnew
      obtain ⟨l, hl, rfl⟩ := hw.addressed a ha
      exact ⟨l, mem_append_right _ hl, rfl⟩
    · have hold : (Fabric.rekey f.originLocks w.originLocks)[k]? = f.originLocks[k]? :=
        Fabric.rekey_old (fun a b ha hb => hkey a b (((hw.owned hq).has ha).imp .inr .inr)
          (((hw.owned hq).has hb).imp .inr .inr)) fun a ha hd => hnew ⟨a, ha, hd⟩
      have hmem : k ∈ f.originLocks := by
        rw [ExtTreeMap.mem_iff_isSome_getElem?, ← hold, ← ExtTreeMap.mem_iff_isSome_getElem?]
        exact hk
      obtain ⟨l, hl, rfl⟩ := hf.addressed k hmem
      exact ⟨l, mem_append_left _ hl, rfl⟩

theorem Enrolled.absorb {modes' : LockRef → OriginId → Option WriteMode}
    (hf : Enrolled p y sends modes) (hw : Enrolled q z sends modes') (hp : p.Sound) (hq : q.Sound)
    (hdisj : ∀ a, p.Has a → ¬ q.Has a)
    (hsame : ∀ a, p.host a → modes' (y.lock a) = modes (y.lock a))
    (hsep : ∀ a b, p.host a → q.host b → y.lock a ≠ z.lock b) :
    Enrolled (p.union q) (y.merge q z) sends modes' := by
  have hleft : ∀ a, p.Has a → (y.merge q z).lock a = y.lock a ∧ (y.merge q z).id a = y.id a :=
    fun a ha => Layout.merge_left (hdisj a ha)
  have hright : ∀ a, q.Has a → (y.merge q z).lock a = z.lock a ∧ (y.merge q z).id a = z.id a :=
    fun a ha => Layout.merge_right ha
  refine ⟨?_, ?_, ?_⟩
  · rintro a b (ha | ha) (hb | hb) heq
    · rw [(hleft a (.inl ha)).1, (hleft b (.inl hb)).1] at heq
      exact hf.inj a b ha hb heq
    · rw [(hleft a (.inl ha)).1, (hright b (.inl hb)).1] at heq
      exact absurd heq (hsep a b ha hb)
    · rw [(hright a (.inl ha)).1, (hleft b (.inl hb)).1] at heq
      exact absurd heq.symm (hsep b a hb ha)
    · rw [(hright a (.inl ha)).1, (hright b (.inl hb)).1] at heq
      exact hw.inj a b ha hb heq
  · intro l hl
    rcases mem_append.mp hl with hl | hl
    · rw [(hleft _ (.inl (hp.host l hl))).1, (hleft _ (.inr (hp.target l hl))).2,
        hsame _ (hp.host l hl)]
      exact hf.mode l hl
    · rw [(hright _ (.inl (hq.host l hl))).1, (hright _ (.inr (hq.target l hl))).2]
      exact hw.mode l hl
  · rintro a (ha | ha) i
    · rw [(hleft a (.inl ha)).1, hsame a ha, hf.registered a ha i]
      refine or_congr_left ⟨?_, ?_⟩
      · rintro ⟨l, hl, hhost, hi⟩
        exact ⟨l, mem_append_left _ hl, hhost, (hleft _ (.inr (hp.target l hl))).2.trans hi⟩
      · rintro ⟨l, hl, rfl, hi⟩
        rcases mem_append.mp hl with hl | hl
        · exact ⟨l, hl, rfl, (hleft _ (.inr (hp.target l hl))).2.symm.trans hi⟩
        · exact absurd (.inl (hq.host l hl)) (hdisj _ (.inl ha))
    · rw [(hright a (.inl ha)).1, hw.registered a ha i]
      refine or_congr_left ⟨?_, ?_⟩
      · rintro ⟨l, hl, hhost, hi⟩
        exact ⟨l, mem_append_right _ hl, hhost, (hright _ (.inr (hq.target l hl))).2.trans hi⟩
      · rintro ⟨l, hl, rfl, hi⟩
        rcases mem_append.mp hl with hl | hl
        · exact absurd (.inl ha) (hdisj _ (.inl (hp.host l hl)))
        · exact ⟨l, hl, rfl, (hright _ (.inr (hq.target l hl))).2.symm.trans hi⟩

end absorb

section drop

variable {β : Type} {P : EndpointAddr → Prop} {m : ExtTreeMap String β} {name : String}
  {eps : List String}

def Link.touches (name : String) (l : Link) : Bool := l.host.node = name || l.target.node = name

def Plan.isolate (p : Plan) (name : String) : Plan :=
  { p with links := p.links.filter fun l => !l.touches name }

theorem Plan.isolate_untouched {l : Link} (hl : l ∈ (p.isolate name).links) :
    l.host.node ≠ name ∧ l.target.node ≠ name := by
  simpa [Link.touches] using (mem_filter.mp hl).2

def Plan.without (p : Plan) (name : String) : Plan where
  host a := p.host a ∧ a.node ≠ name
  target a := p.target a ∧ a.node ≠ name
  links := p.links

theorem KeyedBy.foldl_erase (h : KeyedBy display P m)
    (heps : ∀ a, P a → (a.display ∈ eps ↔ a.node = name)) :
    KeyedBy display (fun a => P a ∧ a.node ≠ name) (eps.foldl (fun m k => m.erase k) m) := by
  intro k
  rw [ExtTreeMap.mem_iff_isSome_getElem?, Keyed.getElem?_foldl_erase]
  split_ifs with hk
  · refine iff_of_false (by simp) ?_
    rintro ⟨a, ⟨ha, hne⟩, rfl⟩
    exact hne ((heps a ha).mp hk)
  · rw [← ExtTreeMap.mem_iff_isSome_getElem?, h k]
    constructor
    · rintro ⟨a, ha, rfl⟩
      exact ⟨a, ⟨ha, fun hn => hk ((heps a ha).mpr hn)⟩, rfl⟩
    · rintro ⟨a, ⟨ha, -⟩, rfl⟩
      exact ⟨a, ha, rfl⟩

theorem Fabric.forget_eq (f : Fabric String) (eps : List String) :
    f.forget eps =
      { f with
        hostFanout := eps.foldl (fun m k => m.erase k) f.hostFanout
        targetInbox := eps.foldl (fun m k => m.erase k) f.targetInbox
        targetCounters := eps.foldl (fun m k => m.erase k) f.targetCounters
        targetEdges := eps.foldl (fun m k => m.erase k) f.targetEdges } := by
  induction eps generalizing f with
  | nil => rfl
  | cons ep eps ih =>
    rw [Fabric.forget, foldl_cons]
    exact ih _

theorem Fabric.foldl_dropEndpoint (ls : List LockRef) (f : Fabric String)
    (heps : ∀ ep ∈ eps, ep ∉ f.originLocks) :
    ∃ dropped cells, eps.foldl Fabric.dropEndpoint (ls, f) =
        (dropped, { f with
          cells
          endpointLocks := eps.foldl (fun m k => m.erase k) f.endpointLocks
          endpointTargetward := eps.foldl (fun m k => m.erase k) f.endpointTargetward }) ∧
      (∀ r ∈ dropped, r ∈ ls ∨ ∃ ep ∈ eps, f.endpointLocks[ep]? = some r) ∧
      ∀ r, (cells r).lock = (f.cells r).lock := by
  induction eps generalizing ls f with
  | nil => exact ⟨ls, f.cells, rfl, fun r => .inl, fun _ => rfl⟩
  | cons ep eps ih =>
    have hnone : f.originLocks[ep]? = none := ExtTreeMap.getElem?_eq_none (heps ep mem_cons_self)
    obtain ⟨cells, hcells, hstep⟩ : ∃ cells : LockRef → LockCell,
        (∀ r, (cells r).lock = (f.cells r).lock) ∧
        Fabric.dropEndpoint (ls, f) ep = (ls ++ f.endpointLocks[ep]?.toList, { f with
          cells
          endpointLocks := f.endpointLocks.erase ep
          endpointTargetward := f.endpointTargetward.erase ep }) := by
      cases hlock : f.endpointLocks[ep]? with
      | none => exact ⟨f.cells, fun _ => rfl, by simp [Fabric.dropEndpoint, hlock, hnone]⟩
      | some ref =>
        refine ⟨update f.cells ref { f.cells ref with closed := true }, fun r => ?_,
          by simp [Fabric.dropEndpoint, hlock, hnone, Fabric.closeLock]⟩
        by_cases hr : r = ref
        · subst hr
          simp
        · simp [hr]
    obtain ⟨dropped, cells', hfold, hdropped, hcells'⟩ := ih (ls ++ f.endpointLocks[ep]?.toList)
      { f with
        cells
        endpointLocks := f.endpointLocks.erase ep
        endpointTargetward := f.endpointTargetward.erase ep }
      fun ep' hep' => heps ep' (mem_cons_of_mem _ hep')
    refine ⟨dropped, cells', ?_, fun r hr => ?_, fun r => (hcells' r).trans (hcells r)⟩
    · rw [foldl_cons, hstep, hfold]
      rfl
    · rcases hdropped r hr with hls | ⟨ep', hep', hget⟩
      · rcases mem_append.mp hls with hls | hls
        · exact .inl hls
        · exact .inr ⟨ep, mem_cons_self, by simpa using hls⟩
      · refine .inr ⟨ep', mem_cons_of_mem _ hep', ?_⟩
        rw [ExtTreeMap.getElem?_erase] at hget
        split_ifs at hget
        exact hget

theorem Fabric.dropEndpoints_eq (h : Mapped display p y f) (hs : p.Sound)
    (hinj : ∀ a b, p.host a → p.host b → y.lock a = y.lock b → a = b)
    (heps : ∀ a, p.Has a → (a.display ∈ eps ↔ a.node = name))
    (hlinks : ∀ l ∈ p.links, l.host.node ≠ name ∧ l.target.node ≠ name) :
    ∃ cells : LockRef → LockCell, (∀ r, (cells r).lock = (f.cells r).lock) ∧
      f.dropEndpoints eps =
        { f with
          cells
          endpointLocks := eps.foldl (fun m k => m.erase k) f.endpointLocks
          endpointTargetward := eps.foldl (fun m k => m.erase k) f.endpointTargetward
          hostFanout := eps.foldl (fun m k => m.erase k) f.hostFanout
          targetInbox := eps.foldl (fun m k => m.erase k) f.targetInbox
          targetCounters := eps.foldl (fun m k => m.erase k) f.targetCounters
          targetEdges := eps.foldl (fun m k => m.erase k) f.targetEdges } := by
  have horigins : ∀ ep ∈ eps, ep ∉ f.originLocks := by
    intro ep hep hmem
    obtain ⟨l, hl, rfl⟩ := h.addressed ep hmem
    exact (hlinks l hl).2 ((heps _ (.inr (hs.target l hl))).mp hep)
  obtain ⟨dropped, cells, hfold, hdropped, hcells⟩ := Fabric.foldl_dropEndpoint [] f horigins
  have hkept : ∀ l ∈ p.links, y.lock l.host ∉ dropped := by
    intro l hl hmem
    obtain ⟨ep, hep, hget⟩ := (hdropped _ hmem).resolve_left not_mem_nil
    obtain ⟨b, hb, rfl⟩ := (h.locks ep).mp
      (ExtTreeMap.mem_iff_isSome_getElem?.mpr (by rw [hget]; rfl))
    rw [h.lockAt b hb, Option.some.injEq] at hget
    have hbl := hinj b l.host hb (hs.host l hl) hget
    exact (hlinks l hl).1 (hbl ▸ (heps b (.inl hb)).mp hep)
  have hfilter : (f.originLocks.filter fun _ r => decide (r.1 ∉ dropped)) = f.originLocks := by
    refine ExtTreeMap.ext_getElem? fun k => ?_
    rw [ExtTreeMap.getElem?_filter']
    cases hget : f.originLocks[k]? with
    | none => rfl
    | some r =>
      obtain ⟨l, hl, rfl⟩ := h.addressed k
        (ExtTreeMap.mem_iff_isSome_getElem?.mpr (by rw [hget]; rfl))
      rw [h.addressable l hl] at hget
      split_ifs at hget
      rw [← Option.some.inj hget]
      simp [Option.filter, hkept l hl]
  refine ⟨cells, hcells, ?_⟩
  rw [Fabric.dropEndpoints, hfold, Fabric.forget_eq]
  simp only [hfilter]

theorem Mapped.dropEndpoints (h : Mapped display p y f) (hs : p.Sound)
    (hinj : ∀ a b, p.host a → p.host b → y.lock a = y.lock b → a = b)
    (heps : ∀ a, p.Has a → (a.display ∈ eps ↔ a.node = name))
    (hlinks : ∀ l ∈ p.links, l.host.node ≠ name ∧ l.target.node ≠ name) :
    Mapped display (p.without name) y (f.dropEndpoints eps) := by
  have hkept : ∀ {β : Type} (m : ExtTreeMap String β) (a), p.Has a → a.node ≠ name →
      (eps.foldl (fun m k => m.erase k) m)[a.display]? = m[a.display]? := by
    intro β m a ha hne
    rw [Keyed.getElem?_foldl_erase, if_neg fun hk => hne ((heps a ha).mp hk)]
  have hhost : ∀ a, p.host a → (a.display ∈ eps ↔ a.node = name) := fun a ha => heps a (.inl ha)
  have htarget : ∀ a, p.target a → (a.display ∈ eps ↔ a.node = name) := fun a ha => heps a (.inr ha)
  obtain ⟨cells, -, hdrop⟩ := Fabric.dropEndpoints_eq h hs hinj heps hlinks
  rw [hdrop]
  refine ⟨h.locks.foldl_erase hhost, h.targetward.foldl_erase hhost, h.fanouts.foldl_erase hhost,
    h.inboxes.foldl_erase htarget, h.counters.foldl_erase htarget, h.slots.foldl_erase htarget,
    ?_, ?_, ?_, ?_, h.addressable, h.addressed⟩
  · rintro a ⟨ha, hne⟩
    rw [hkept _ a (.inl ha) hne]
    exact h.lockAt a ha
  · rintro a ⟨ha, hne⟩
    rw [hkept _ a (.inl ha) hne]
    exact h.sinks a ha
  · intro l hl
    rw [hkept _ _ (.inr (hs.target l hl)) (hlinks l hl).2,
      hkept _ _ (.inl (hs.host l hl)) (hlinks l hl).1]
    exact h.linked l hl
  · rintro t ⟨ht, hne⟩ hfree
    rw [hkept _ t (.inr ht) hne]
    exact h.unlinked t ht hfree

theorem Fabric.modes_congr {κ : Type} [Ord κ] {f g : Fabric κ}
    (h : ∀ r, (g.cells r).lock = (f.cells r).lock) : g.modes = f.modes := by
  funext r i
  rw [Fabric.modes, h r]
  rfl

theorem Enrolled.without (h : Enrolled p y sends modes) (name : String) :
    Enrolled (p.without name) y sends modes where
  inj a b ha hb := h.inj a b ha.1 hb.1
  mode := h.mode
  registered a ha := h.registered a ha.1

end drop

theorem LockUse.apply_writeMode (l : EndpointLock) (use : LockUse) :
    (l.apply use.op).writeMode = l.writeMode := by
  cases use <;> exact l.apply_writeMode _

variable {ref : LockRef} {i : OriginId}

theorem Enrolled.send (h : Enrolled p y sends modes) (hi : modes ref i = none) (mode : WriteMode) :
    Enrolled p y (sends ++ [(ref, i)])
      (update modes ref (update (modes ref) i (some mode))) := by
  refine ⟨h.inj, fun l hl => ?_, fun b hb j => ?_⟩
  · rw [update_update_apply, if_neg, h.mode l hl]
    rintro ⟨rfl, rfl⟩
    cases hi.symm.trans (h.mode l hl)
  · rw [update_update_apply]
    split_ifs with hj
    · simp [hj]
    · rw [h.registered b hb j]
      simp [hj]

theorem Enrolled.endSend (h : Enrolled p y sends modes) (hlinks : ∀ l ∈ p.links, y.id l.target ≠ i)
    {sends' : List (LockRef × OriginId)} (hsends : ∀ x, x ∈ sends' ↔ x ∈ sends ∧ x ≠ (ref, i)) :
    Enrolled p y sends' (update modes ref (update (modes ref) i none)) := by
  refine ⟨h.inj, fun l hl => ?_, fun b hb j => ?_⟩
  · rw [update_update_apply, if_neg fun he => hlinks l hl he.2, h.mode l hl]
  · rw [update_update_apply, hsends]
    split_ifs with hj
    · simp only [Option.isSome_none, Bool.false_eq_true, hj, ne_eq, not_true_eq_false, and_false,
        or_false, false_iff, not_exists, not_and]
      exact fun l hl _ => hlinks l hl
    · rw [h.registered b hb j]
      simp [hj]

end SerialNexus
