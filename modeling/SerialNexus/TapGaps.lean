import SerialNexus.TapWorld

/-! # Feed loss and the taps

Bytes a producer could not mirror are counted in `feed_dropped`; the next ingested chunk carries the
new loss as `gap_before` to every tap.  A tap whose own channel is full at that moment loses the
chunk and, with it, the announcement: nothing repeats it. -/

namespace SerialNexus

open List Function
namespace TapWorld

def heardLoss (w : TapWorld) (t : Tap) (g : Grant) : ℕ :=
  (g.answer.feedDropped + ((dataFor t.id (w.sent t.out)).map (·.gapBefore)).sum) % u64Size

def FeedLossVisible (w : TapWorld) : Prop :=
  ∀ t ∈ w.hub.taps, ∀ g, w.grants t.id = some g → w.heardLoss t g = w.hub.feedDroppedSeen

def ingests (w : TapWorld) : TapAct → Option Chunk
  | .ingest chunk => some chunk
  | .drain => w.feed.recv.1
  | _ => none

def Heard (w : TapWorld) (a : TapAct) : Prop :=
  ∀ chunk, w.ingests a = some chunk → w.hub.feedDropped ≠ w.hub.feedDroppedSeen →
    ∀ c, (w.conns c).out.isOpen = true →
      w.hub.taps.countP (fun t => t.out = c) ≤ (w.conns c).out.capacity

structure Linked (w : TapWorld) : Prop where
  taps_nodup : (w.hub.taps.map (·.id)).Nodup
  taps_granted : ∀ t ∈ w.hub.taps, (w.grants t.id).isSome
  dropped_lt : w.hub.feedDropped < u64Size
  seen_lt : w.hub.feedDroppedSeen < u64Size

section steps
variable {w : TapWorld}

structure Undisturbed (w w' : TapWorld) (t' : Tap) : Prop where
  seen : w'.hub.feedDroppedSeen = w.hub.feedDroppedSeen
  old : ∃ t ∈ w.hub.taps, t.id = t'.id ∧ w'.grants t'.id = w.grants t.id ∧
    dataFor t'.id (w'.sent t'.out) = dataFor t.id (w.sent t.out)

structure Newcomer (w w' : TapWorld) (t' : Tap) : Prop where
  seen : w'.hub.feedDroppedSeen = w.hub.feedDroppedSeen
  grant : ∀ g, w'.grants t'.id = some g → g.answer.feedDropped = w.hub.feedDroppedSeen
  gaps : ∀ d ∈ dataFor t'.id (w'.sent t'.out), d.gapBefore = 0

variable {w' : TapWorld} {t' : Tap} {id : ℕ} {a : TapAct}

theorem Undisturbed.of_same (hs : w'.hub.feedDroppedSeen = w.hub.feedDroppedSeen)
    (hg : w'.grants = w.grants) (hsent : w'.sent = w.sent)
    (ht : ∃ t ∈ w.hub.taps, t.id = t'.id ∧ t.out = t'.out) : Undisturbed w w' t' := by
  obtain ⟨t, hmem, hid, hout⟩ := ht
  exact ⟨hs, t, hmem, hid, by rw [hg, hid], by rw [hsent, hid, hout]⟩

theorem registerTap_taps (w : TapWorld) (id : ℕ) (c : ConnId) (replay : Bool) :
    ∃ dropped, (w.registerTap id c replay).hub.taps = w.hub.taps ++ [⟨id, c, none, dropped⟩] := by
  change ∃ dropped, (w.hub.register w.conns id c 0 replay).2.1.taps = _
  rw [TapHub.register_eq]
  exact ⟨_, rfl⟩

theorem registerTap_cases (hw : w.Linked) {c : ConnId} {replay : Bool} (hid : w.grants id = none)
    (hfresh : ∀ c, ∀ m ∈ w.sent c, m.tapId ≠ id) (ht : t' ∈ (w.registerTap id c replay).hub.taps) :
    Undisturbed w (w.registerTap id c replay) t' ∨ Newcomer w (w.registerTap id c replay) t' := by
  obtain ⟨dropped, htaps⟩ := registerTap_taps w id c replay
  have hseen : (w.registerTap id c replay).hub.feedDroppedSeen = w.hub.feedDroppedSeen := by
    change (w.hub.register w.conns id c 0 replay).2.1.feedDroppedSeen = _
    rw [TapHub.register_eq]
    rfl
  have hbase : (w.hub.register w.conns id c 0 replay).1.feedDropped = w.hub.feedDroppedSeen := by
    rw [TapHub.register_eq]
  have hq : ∀ c', ∀ m ∈ w.conns.queued (w.hub.register w.conns id c 0 replay).2.2 c',
      ∃ piece offset, m = .data id piece offset 0 := by
    rw [TapHub.register_eq]
    exact (TapHub.sendPieces_queues id c _ _ 0 w.conns).2
  rw [htaps] at ht
  rcases mem_append.mp ht with ht | ht
  · have hne : t'.id ≠ id := by
      intro he
      have := hw.taps_granted t' ht
      rw [he, hid] at this
      cases this
    refine .inl ⟨hseen, t', ht, rfl, update_of_ne hne _ _, dataFor_append_of_none _ ?_⟩
    intro m hm
    obtain ⟨piece, offset, rfl⟩ := hq _ m hm
    exact if_neg hne.symm
  · obtain rfl := mem_singleton.mp ht
    refine .inr ⟨hseen, ?_, ?_⟩
    · intro g hg
      change update w.grants id _ id = some g at hg
      rw [update_self] at hg
      obtain rfl := Option.some.inj hg
      exact hbase
    · intro d hd
      change d ∈ dataFor id (w.sent c ++ w.conns.queued _ c) at hd
      rw [dataFor_append, dataFor_eq_nil (hfresh c), nil_append] at hd
      obtain ⟨m, hm, hdm⟩ := mem_filterMap.mp hd
      obtain ⟨piece, offset, rfl⟩ := hq c m hm
      simp only [TapMsg.datumFor, if_true, Option.some.injEq] at hdm
      rw [← hdm]

theorem mirror_feedDroppedSeen (h : TapHub) (feed : Channel Chunk) (chunk : Chunk) :
    (h.mirror feed chunk).1.feedDroppedSeen = h.feedDroppedSeen := by
  unfold TapHub.mirror TapHub.carry
  split_ifs
  · split <;> rfl
  · rfl

theorem mirror_feedDropped_lt {h : TapHub} (hd : h.feedDropped < u64Size) (feed : Channel Chunk)
    (chunk : Chunk) : (h.mirror feed chunk).1.feedDropped < u64Size := by
  unfold TapHub.mirror TapHub.carry
  split_ifs
  · split
    · exact hd
    · exact wrappingAdd_lt _ _
  · exact wrappingAdd_lt _ _

theorem armWait_feed (h : TapHub) (id : ℕ) (m : Matcher) (lookback context : ℕ) (replay : Bool) :
    (h.armWait id m lookback context replay).2.feedDropped = h.feedDropped ∧
      (h.armWait id m lookback context replay).2.feedDroppedSeen = h.feedDroppedSeen := by
  unfold TapHub.armWait
  split_ifs
  · exact ⟨rfl, rfl⟩
  · dsimp only
    split <;> exact ⟨rfl, rfl⟩

theorem disarm_feed (h : TapHub) (id : ℕ) :
    (h.disarm id).2.feedDropped = h.feedDropped ∧
      (h.disarm id).2.feedDroppedSeen = h.feedDroppedSeen := by
  unfold TapHub.disarm
  split <;> exact ⟨rfl, rfl⟩

theorem drainFeed_of_empty (h : w.feed.recv.1 = none) : w.drainFeed = w := by
  unfold drainFeed
  split
  · next chunk feed he => rw [he] at h; cases h
  · rfl

theorem step_cases (hw : w.Linked) (ha : w.Allowed a) (hni : w.ingests a = none)
    (ht : t' ∈ (w.step a).hub.taps) : Undisturbed w (w.step a) t' ∨ Newcomer w (w.step a) t' := by
  have same : ∀ t', t' ∈ w.hub.taps → ∃ t ∈ w.hub.taps, t.id = t'.id ∧ t.out = t'.out :=
    fun t' h => ⟨t', h, rfl, rfl⟩
  cases a with
  | ingest chunk => cases hni
  | drain =>
    change t' ∈ w.drainFeed.hub.taps at ht
    change Undisturbed w w.drainFeed t' ∨ _
    rw [drainFeed_of_empty hni] at ht ⊢
    exact .inl (.of_same rfl rfl rfl (same t' ht))
  | register id c replay => exact registerTap_cases hw ha.1 ha.2 ht
  | mirror chunk =>
    change t' ∈ (w.hub.mirror w.feed chunk).1.taps at ht
    rw [(mirror_same w.hub w.feed chunk).2.2] at ht
    exact .inl (.of_same (mirror_feedDroppedSeen _ _ _) rfl rfl (same t' ht))
  | skipped | hangUp => exact .inl (.of_same rfl rfl rfl (same t' ht))
  | attachTerminal id c =>
    obtain ⟨t, hmem, hid, hout, _⟩ := mem_setTerminal ht
    exact .inl (.of_same rfl rfl rfl ⟨t, hmem, hid, hout⟩)
  | close id => exact .inl (.of_same rfl rfl rfl (same t' (mem_of_mem_filter ht)))
  | armWait id m lookback context replay =>
    change t' ∈ (w.hub.armWait id m lookback context replay).2.taps at ht
    rw [(armWait_same w.hub id m lookback context replay).2.2] at ht
    exact .inl (.of_same (armWait_feed _ _ _ _ _ _).2 rfl rfl (same t' ht))
  | disarm id =>
    change t' ∈ (w.hub.disarm id).2.taps at ht
    rw [(disarm_same w.hub id).2.2] at ht
    exact .inl (.of_same (disarm_feed _ _).2 rfl rfl (same t' ht))
  | detachAll reason => cases ht
  | receive c =>
    change t' ∈ (w.receiveOn c).hub.taps at ht
    change Undisturbed w (w.receiveOn c) t' ∨ _
    unfold receiveOn at ht ⊢
    split at ht
    · exact .inl (.of_same rfl rfl rfl (same t' ht))
    · exact .inl (.of_same rfl rfl rfl (same t' ht))
  | foreign c msg =>
    refine .inl ⟨rfl, t', ht, rfl, rfl, dataFor_append_of_none _ ?_⟩
    intro m hm
    rw [Conns.queued_trySend] at hm
    split_ifs at hm
    · rw [mem_singleton.mp hm]
      have hg := hw.taps_granted t' ht
      cases msg with
      | data id bytes offset gap =>
        refine if_neg ?_
        rintro rfl
        rw [show w.grants t'.id = none from ha] at hg
        cases hg
      | closed => rfl
    · cases hm

theorem step_of_ingests {chunk : Chunk} (h : w.ingests a = some chunk) :
    ∃ feed, w.step a = ({ w with feed } : TapWorld).ingestChunk chunk := by
  cases a with
  | ingest chunk' =>
    obtain rfl : chunk' = chunk := Option.some.inj h
    exact ⟨w.feed, rfl⟩
  | drain =>
    change w.feed.recv.1 = some chunk at h
    change ∃ feed, w.drainFeed = _
    unfold drainFeed
    split
    · next chunk' feed he =>
      rw [he] at h
      obtain rfl : chunk' = chunk := Option.some.inj h
      exact ⟨feed, rfl⟩
    · next he => rw [he] at h; cases h
  | mirror | skipped | register | attachTerminal | close | armWait | disarm | detachAll | receive
  | foreign | hangUp => cases h

theorem ingestChunk_sent (w : TapWorld) (chunk : Chunk) (id : ℕ) (c : ConnId) :
    dataFor id ((w.ingestChunk chunk).sent c) = dataFor id (w.sent c) ++
      dataFor id (w.conns.queued
        (TapHub.fanOut chunk w.hub.ingested w.hub.gapBefore w.hub.taps w.conns).2 c) :=
  dataFor_append _ _ _

theorem heardLoss_append {t : Tap} {g : Grant} {d : List Datum}
    (h : dataFor t'.id (w'.sent t'.out) = dataFor t.id (w.sent t.out) ++ d) :
    w'.heardLoss t' g = wrappingAdd (w.heardLoss t g) (d.map (·.gapBefore)).sum := by
  unfold heardLoss wrappingAdd
  rw [h, map_append, sum_append, Nat.mod_add_mod, Nat.add_assoc]

theorem ingestChunk_visible_iff (hw : w.Linked) (hv : w.FeedLossVisible) (chunk : Chunk) :
    (w.ingestChunk chunk).FeedLossVisible ↔
      (w.hub.feedDropped ≠ w.hub.feedDroppedSeen → ∀ c, (w.conns c).out.isOpen = true →
        w.hub.taps.countP (fun t => t.out = c) ≤ (w.conns c).out.capacity) := by
  have hlost := wrappingAdd_wrappingSub (b := w.hub.feedDroppedSeen) hw.dropped_lt
  constructor
  · intro hv' hne c ho
    by_contra hroom
    obtain ⟨t', ht', hnil⟩ := TapHub.fanOut_unsent_of_no_room chunk w.hub.ingested w.hub.gapBefore
      hw.taps_nodup ho (Nat.lt_of_not_le hroom)
    obtain ⟨t, ht, hid, hout⟩ := TapHub.mem_fanOut _ _ _ ht'
    obtain ⟨g, hg⟩ := Option.isSome_iff_exists.mp (hw.taps_granted t ht)
    have hsame : (w.ingestChunk chunk).heardLoss t' g = wrappingAdd (w.heardLoss t g) 0 :=
      heardLoss_append (d := []) (by rw [ingestChunk_sent, hnil, hid, hout])
    have hafter := hv' t' ht' g (by rw [hid]; exact hg)
    rw [hsame, hv t ht g hg, wrappingAdd_of_lt (by have := hw.seen_lt; omega)] at hafter
    exact hne hafter.symm
  · intro hroom t' ht' g hg
    obtain ⟨t, ht, hid, hout, hcase⟩ := TapHub.fanOut_spec chunk _ _ hw.taps_nodup ht'
    change w.grants t'.id = some g at hg
    rw [hid] at hg
    have hheard := hv t ht g hg
    change (w.ingestChunk chunk).heardLoss t' g = w.hub.feedDropped
    have hsent : ∀ ds, dataFor t.id (w.conns.queued (TapHub.fanOut chunk w.hub.ingested
        w.hub.gapBefore w.hub.taps w.conns).2 t.out) = ds →
        (w.ingestChunk chunk).heardLoss t' g =
          wrappingAdd w.hub.feedDroppedSeen (ds.map (·.gapBefore)).sum := by
      intro ds hds
      rw [← hheard]
      exact heardLoss_append (by rw [ingestChunk_sent, hid, hout, hds])
    by_cases hne : w.hub.feedDropped = w.hub.feedDroppedSeen
    · have hzero : w.hub.gapBefore = 0 := by
        unfold TapHub.gapBefore wrappingSub
        rw [hne, Nat.mod_eq_of_lt hw.seen_lt, Nat.add_sub_cancel' hw.seen_lt.le, Nat.mod_self]
      rcases hcase with ⟨_, hdata⟩ | ⟨_, hdata⟩
      · rw [hsent _ hdata]
        simpa [hzero, hne] using wrappingAdd_of_lt (a := w.hub.feedDroppedSeen) (b := 0) hw.seen_lt
      · rw [hsent _ hdata]
        simpa [hne] using wrappingAdd_of_lt (a := w.hub.feedDroppedSeen) (b := 0) hw.seen_lt
    · have hdata := TapHub.fanOut_sent_of_room chunk w.hub.ingested w.hub.gapBefore hw.taps_nodup
        (hroom hne) ht'
      rw [hid, hout] at hdata
      rw [hsent _ hdata]
      simpa [TapHub.gapBefore] using hlost

theorem step_visible_iff (hw : w.Linked) (hv : w.FeedLossVisible) (ha : w.Allowed a) :
    (w.step a).FeedLossVisible ↔ w.Heard a := by
  cases hi : w.ingests a with
  | some chunk =>
    obtain ⟨feed, hstep⟩ := step_of_ingests hi
    have hw' : Linked { w with feed } := ⟨hw.taps_nodup, hw.taps_granted, hw.dropped_lt, hw.seen_lt⟩
    rw [hstep, ingestChunk_visible_iff hw' hv]
    constructor
    · rintro h _ _
      exact h
    · intro h
      exact h chunk hi
  | none =>
    have hheard : w.Heard a := by
      intro chunk hc
      rw [hi] at hc
      cases hc
    refine ⟨fun _ => hheard, fun _ t' ht' g hg => ?_⟩
    rcases step_cases hw ha hi ht' with hold | hnew
    · obtain ⟨t, ht, hid, hgr, hdata⟩ := hold.old
      rw [hgr] at hg
      have hsame : (w.step a).heardLoss t' g = w.heardLoss t g := by
        unfold heardLoss
        rw [hdata]
      rw [hsame, hold.seen, hv t ht g hg]
    · have hsum : ((dataFor t'.id ((w.step a).sent t'.out)).map (·.gapBefore)).sum = 0 := by
        rw [List.sum_eq_zero_iff]
        intro n hn
        obtain ⟨d, hd, rfl⟩ := mem_map.mp hn
        exact hnew.gaps d hd
      unfold heardLoss
      rw [hsum, hnew.grant g hg, hnew.seen, Nat.add_zero, Nat.mod_eq_of_lt hw.seen_lt]

theorem Linked.of_hub (hw : w.Linked) (hg : w'.grants = w.grants)
    (ht : (w'.hub.taps.map (·.id)).Sublist (w.hub.taps.map (·.id)))
    (hd : w'.hub.feedDropped < u64Size) (hs : w'.hub.feedDroppedSeen < u64Size) : w'.Linked where
  taps_nodup := hw.taps_nodup.sublist ht
  taps_granted t h := by
    obtain ⟨t₀, h₀, hid⟩ := mem_map.mp (ht.subset (mem_map_of_mem h))
    rw [hg, ← hid]
    exact hw.taps_granted t₀ h₀
  dropped_lt := hd
  seen_lt := hs

theorem registerTap_linked (hw : w.Linked) (c : ConnId) (replay : Bool) (hid : w.grants id = none) :
    (w.registerTap id c replay).Linked := by
  obtain ⟨dropped, htaps⟩ := registerTap_taps w id c replay
  have hhub : (w.registerTap id c replay).hub.feedDropped = w.hub.feedDropped ∧
      (w.registerTap id c replay).hub.feedDroppedSeen = w.hub.feedDroppedSeen := by
    change (w.hub.register w.conns id c 0 replay).2.1.feedDropped = _ ∧
      (w.hub.register w.conns id c 0 replay).2.1.feedDroppedSeen = _
    rw [TapHub.register_eq]
    exact ⟨rfl, rfl⟩
  have hne : ∀ t ∈ w.hub.taps, t.id ≠ id := by
    intro t ht he
    have := hw.taps_granted t ht
    rw [he, hid] at this
    cases this
  refine ⟨?_, ?_, hhub.1 ▸ hw.dropped_lt, hhub.2 ▸ hw.seen_lt⟩
  · rw [htaps, map_append, map_singleton, nodup_append]
    refine ⟨hw.taps_nodup, nodup_singleton _, ?_⟩
    rintro _ hold _ hnew rfl
    obtain ⟨t, ht, he⟩ := mem_map.mp hold
    exact hne t ht (he.trans (mem_singleton.mp hnew))
  · intro t ht
    change (update w.grants id _ t.id).isSome
    rw [htaps] at ht
    rcases mem_append.mp ht with ht | ht
    · rw [update_of_ne (hne t ht)]
      exact hw.taps_granted t ht
    · rw [mem_singleton.mp ht, update_self]
      rfl

theorem step_linked (hw : w.Linked) (a : TapAct) (ha : w.Allowed a) : (w.step a).Linked := by
  have hd := hw.dropped_lt
  have hs := hw.seen_lt
  cases hi : w.ingests a with
  | some chunk =>
    obtain ⟨feed, hstep⟩ := step_of_ingests hi
    rw [hstep]
    exact hw.of_hub rfl (TapHub.fanOut_ids_sublist _ _ _ _ _) hd hd
  | none =>
    cases a with
    | ingest chunk => cases hi
    | drain =>
      change w.drainFeed.Linked
      rw [drainFeed_of_empty hi]
      exact hw
    | register id c replay => exact registerTap_linked hw c replay ha.1
    | mirror chunk =>
      refine hw.of_hub rfl ?_ (mirror_feedDropped_lt hd _ _) ?_
      · change ((w.hub.mirror w.feed chunk).1.taps.map (·.id)).Sublist _
        rw [(mirror_same w.hub w.feed chunk).2.2]
      · change (w.hub.mirror w.feed chunk).1.feedDroppedSeen < u64Size
        rw [mirror_feedDroppedSeen]
        exact hs
    | skipped n => exact hw.of_hub rfl (.refl _) (wrappingAdd_lt _ _) hs
    | attachTerminal id c =>
      refine hw.of_hub rfl ?_ hd hs
      change ((TapHub.setTerminal id c w.hub.taps).map (·.id)).Sublist _
      rw [setTerminal_ids]
    | close id => exact hw.of_hub rfl (filter_sublist.map _) hd hs
    | armWait id m lookback context replay =>
      obtain ⟨hdropped, hseen⟩ := armWait_feed w.hub id m lookback context replay
      refine hw.of_hub rfl ?_ (hdropped.trans_lt hd) (hseen.trans_lt hs)
      change ((w.hub.armWait id m lookback context replay).2.taps.map (·.id)).Sublist _
      rw [(armWait_same w.hub id m lookback context replay).2.2]
    | disarm id =>
      obtain ⟨hdropped, hseen⟩ := disarm_feed w.hub id
      refine hw.of_hub rfl ?_ (hdropped.trans_lt hd) (hseen.trans_lt hs)
      change ((w.hub.disarm id).2.taps.map (·.id)).Sublist _
      rw [(disarm_same w.hub id).2.2]
    | detachAll reason => exact hw.of_hub rfl (nil_sublist _) hd hs
    | receive c =>
      change (w.receiveOn c).Linked
      unfold receiveOn
      split <;> exact hw.of_hub rfl (.refl _) hd hs
    | foreign | hangUp => exact hw.of_hub rfl (.refl _) hd hs

end steps

theorem start_linked (endpoint : String) (ringCap epoch feedCap : ℕ) (conns : Conns) :
    (start endpoint ringCap epoch feedCap conns).Linked where
  taps_nodup := nodup_nil
  taps_granted _ ht := by cases ht
  dropped_lt := u64Size_pos
  seen_lt := u64Size_pos

theorem feed_loss_visible_iff (endpoint : String) (ringCap epoch feedCap : ℕ) (conns : Conns)
    (as : List TapAct) (h : machine.Legal (start endpoint ringCap epoch feedCap conns) as) :
    machine.Always FeedLossVisible (start endpoint ringCap epoch feedCap conns) as ↔
      machine.Each Heard (start endpoint ringCap epoch feedCap conns) as := by
  refine Runs.Machine.always_iff_each (I := Linked)
    (fun w a hw ha => step_linked hw a ha) (fun w a hw ha hv => step_visible_iff hw hv ha)
    (start_linked _ _ _ _ _) ?_ h
  intro t ht
  cases ht

def heardRun : List TapAct := [.register 1 0 false, .skipped 7, .ingest [10]]

theorem feed_loss_visible_heardRun :
    machine.Always FeedLossVisible (start "usb0" 0 1 256 oneSlot) heardRun := by
  refine (feed_loss_visible_iff "usb0" 0 1 256 oneSlot heardRun
    (.cons ⟨rfl, fun _ _ hm => by cases hm⟩ (.cons trivial (.cons trivial trivial)))).mpr ?_
  refine ⟨fun _ hc => (by cases hc), fun _ hc => (by cases hc), ?_, trivial⟩
  intro chunk _ _ c _
  exact countP_le_length

def lostGapRun : List TapAct :=
  [.register 1 0 false, .ingest [10], .skipped 7, .ingest [11], .receive 0, .ingest [12]]

def lostGapWorld : TapWorld := machine.run (start "usb0" 0 1 256 oneSlot) lostGapRun

theorem lost_gap_unannounced :
    machine.Reachable (start "usb0" 0 1 256 oneSlot) lostGapWorld ∧
      lostGapWorld.hub.taps = [⟨1, 0, none, 1⟩] ∧
      lostGapWorld.hub.feedDroppedSeen = 7 ∧
      dataFor 1 (lostGapWorld.sent 0) = [⟨[10], 0, 0⟩, ⟨[12], 2, 0⟩] ∧
      ¬ lostGapWorld.FeedLossVisible := by
  refine ⟨⟨lostGapRun, ?_, rfl⟩, by decide, by decide, by decide, ?_⟩
  · exact .cons ⟨rfl, fun _ _ hm => by cases hm⟩ (.cons trivial (.cons trivial
      (.cons trivial (.cons trivial (.cons trivial trivial)))))
  · intro hv
    have := hv ⟨1, 0, none, 1⟩ (by decide) _ rfl
    exact absurd this (by decide)

end TapWorld
end SerialNexus
