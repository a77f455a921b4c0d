import SerialNexus.TapSeams

/-! # Pattern waits leave no trace

A hub with a replay ring is active whether or not anybody waits on it, so arming and disarming
pattern waits changes nothing but the list of waits (`Ringed`).  `only keep` is the hub without the
waits whose id is not kept. -/

namespace SerialNexus

open List

namespace TapHub

variable {h : TapHub} {keep : ℕ → Bool}

def only (h : TapHub) (keep : ℕ → Bool) : TapHub :=
  { h with waits := h.waits.filter fun w => keep w.id }

structure Ringed (h : TapHub) : Prop where
  active : h.active = !h.orphaned
  ring : h.orphaned = false → h.ring.isSome = true

theorem refreshActive_of_ring (h : TapHub) (hr : h.orphaned = false → h.ring.isSome = true) :
    h.refreshActive = { h with active := !h.orphaned } := by
  unfold refreshActive
  cases ho : h.orphaned with
  | true => simp
  | false => simp [hr ho]

theorem Ringed.refreshActive_eq (hr : h.Ringed) : h.refreshActive = h := by
  rw [refreshActive_of_ring h hr.ring, ← hr.active]

theorem Ringed.of_ring (hr : h.Ringed) {h' : TapHub} (ho : h'.orphaned = h.orphaned)
    (hring : h'.ring.isSome = h.ring.isSome) : h'.refreshActive.Ringed := by
  have hring' : h'.orphaned = false → h'.ring.isSome = true := by
    rw [ho, hring]
    exact hr.ring
  rw [refreshActive_of_ring h' hring']
  exact ⟨rfl, hring'⟩

theorem Ringed.refreshActive_only (hr : h.Ringed) {h₁ h₂ : TapHub} (he : h₁ = h₂.only keep)
    (ho : h₂.orphaned = h.orphaned) (hring : h₂.ring.isSome = h.ring.isSome) :
    h₁.refreshActive = h₂.refreshActive.only keep := by
  have hring' : h₂.orphaned = false → h₂.ring.isSome = true := by
    rw [ho, hring]
    exact hr.ring
  rw [he, refreshActive_of_ring h₂ hring', refreshActive_of_ring (h₂.only keep) hring']
  rfl

theorem carry_only (h : TapHub) (keep : ℕ → Bool) (feed : Channel Chunk) (chunk : Chunk) :
    (h.only keep).carry feed chunk = ((h.carry feed chunk).1.only keep, (h.carry feed chunk).2) := by
  unfold carry
  split <;> rfl

theorem mirror_only (h : TapHub) (keep : ℕ → Bool) (feed : Channel Chunk) (chunk : Chunk) :
    (h.only keep).mirror feed chunk =
      ((h.mirror feed chunk).1.only keep, (h.mirror feed chunk).2) := by
  rw [mirror, mirror, carry_only]
  change (if h.active then _ else _) = _
  split <;> rfl

theorem feedWaits_cons (chunk : Chunk) (gap epoch : ℕ) (wait : ArmedWait) :
    ∃ (kept : List ArmedWait) (ended : List (ℕ × WaitEnd)), (∀ w ∈ kept, w.id = wait.id) ∧
      (∀ e ∈ ended, e.1 = wait.id) ∧
      ∀ waits, feedWaits chunk gap epoch (wait :: waits) =
        (kept ++ (feedWaits chunk gap epoch waits).1,
          ended ++ (feedWaits chunk gap epoch waits).2) := by
  rcases hfeed : wait.scan.feed chunk (gap - wait.pendingGapCredit) with ⟨_ | hit, scan⟩
  · refine ⟨[{ wait with pendingGapCredit := 0, scan }], [], by simp, by simp, fun waits => ?_⟩
    rw [feedWaits, hfeed]
    rfl
  · cases hd : wait.done with
    | true =>
      refine ⟨[], [(wait.id, .matched hit
        ({ wait with pendingGapCredit := 0, scan }.accounting epoch))], by simp, by simp, ?_⟩
      intro waits
      simp [feedWaits, hfeed, hd]
    | false =>
      refine ⟨[], [], by simp, by simp, fun waits => ?_⟩
      simp [feedWaits, hfeed, hd]

theorem filter_const {α : Type*} {p : α → Bool} {b : Bool} {l : List α} (hp : ∀ a ∈ l, p a = b) :
    l.filter p = if b then l else [] := by
  cases b with
  | true => exact filter_eq_self.mpr hp
  | false => exact filter_eq_nil_iff.mpr fun a ha => by simp [hp a ha]

theorem feedWaits_only (keep : ℕ → Bool) (chunk : Chunk) (gap epoch : ℕ) (waits : List ArmedWait) :
    feedWaits chunk gap epoch (waits.filter fun w => keep w.id) =
      ((feedWaits chunk gap epoch waits).1.filter (fun w => keep w.id),
        (feedWaits chunk gap epoch waits).2.filter fun e => keep e.1) := by
  induction waits with
  | nil => rfl
  | cons wait waits ih =>
    obtain ⟨kept, ended, hkept, hended, hcons⟩ := feedWaits_cons chunk gap epoch wait
    have hwaits : kept.filter (fun w => keep w.id) = if keep wait.id then kept else [] :=
      filter_const fun w hw => by rw [hkept w hw]
    have hends : ended.filter (fun e => keep e.1) = if keep wait.id then ended else [] :=
      filter_const fun e he => by rw [hended e he]
    rw [hcons waits, filter_append, filter_append, hwaits, hends]
    cases hk : keep wait.id with
    | true =>
      rw [filter_cons_of_pos (by simp [hk]), hcons, ih]
      rfl
    | false =>
      rw [filter_cons_of_neg (by simp [hk]), ih]
      rfl

theorem ingest_only (hr : h.Ringed) (keep : ℕ → Bool) (conns : Conns) (chunk : Chunk) :
    (h.only keep).ingest conns chunk =
      ((h.ingest conns chunk).1.only keep, (h.ingest conns chunk).2.1,
        (h.ingest conns chunk).2.2.filter fun e => keep e.1) := by
  simp only [ingest]
  refine Prod.ext (hr.refreshActive_only ?_ rfl (Option.isSome_map ..)) (Prod.ext rfl ?_)
  · simp only [only, gapBefore, feedWaits_only]
    rfl
  · simp only [only, gapBefore, feedWaits_only]

theorem ingest_ringed (hr : h.Ringed) (conns : Conns) (chunk : Chunk) :
    (h.ingest conns chunk).1.Ringed :=
  hr.of_ring rfl (Option.isSome_map ..)

/-! ### Waits -/

theorem openingScan_only (h : TapHub) (keep : ℕ → Bool) (matcher : Matcher) (lookback context : ℕ)
    (replay : Bool) :
    (h.only keep).openingScan matcher lookback context replay =
      h.openingScan matcher lookback context replay := rfl

variable {id : ℕ}

theorem armWait_only (hr : h.Ringed) {id : ℕ} (hk : keep id = true) (matcher : Matcher)
    (lookback context : ℕ) (replay : Bool) (hroom : h.waits.length < maxArmedWaits) :
    (h.only keep).armWait id matcher lookback context replay =
      ((h.armWait id matcher lookback context replay).1,
        (h.armWait id matcher lookback context replay).2.only keep) := by
  have hfew : (h.only keep).waits.length < maxArmedWaits := (length_filter_le _ _).trans_lt hroom
  rw [armWait, armWait, if_neg hroom.not_ge, if_neg hfew.not_ge, openingScan_only]
  obtain ⟨hit, scan, fromOffset, replayScanned⟩ := h.openingScan matcher lookback context replay
  cases hit with
  | some hit => rfl
  | none =>
    refine congrArg (Prod.mk _) (hr.refreshActive_only ?_ rfl rfl)
    simp [only, gapBefore, hk]

theorem armWait_drop (hr : h.Ringed) {id : ℕ} (hk : keep id = false) (matcher : Matcher)
    (lookback context : ℕ) (replay : Bool) :
    (h.armWait id matcher lookback context replay).2.only keep = h.only keep := by
  obtain ⟨_, _, he⟩ | ⟨_, _, he⟩ | ⟨-, wait, rfl, -, he⟩ :=
    h.armWait_outcomes id matcher lookback context replay
  · rw [he]
  · rw [he]
  · have hringed : Ringed { h with waits := h.waits ++ [wait] } := ⟨hr.active, hr.ring⟩
    rw [he, hringed.refreshActive_eq]
    simp [only, hk]

theorem armWait_ringed (hr : h.Ringed) (id : ℕ) (matcher : Matcher) (lookback context : ℕ)
    (replay : Bool) : (h.armWait id matcher lookback context replay).2.Ringed := by
  obtain ⟨_, _, he⟩ | ⟨_, _, he⟩ | ⟨-, wait, -, -, he⟩ :=
    h.armWait_outcomes id matcher lookback context replay
  · rwa [he]
  · rwa [he]
  · rw [he]
    exact hr.of_ring rfl rfl

theorem disarm_only (hr : h.Ringed) (hk : keep id = true) :
    (h.only keep).disarm id = ((h.disarm id).1, (h.disarm id).2.only keep) := by
  have hfind : (h.only keep).waits.find? (fun w => w.id = id) =
      h.waits.find? fun w => w.id = id := by
    rw [only, find?_filter]
    congr 1
    funext w
    by_cases hw : w.id = id <;> simp [hw, hk]
  have herase : (h.only keep).waits.eraseP (·.id = id) =
      (h.waits.eraseP (·.id = id)).filter fun w => keep w.id := by
    rw [only, eraseP_filter]
    congr 2
    funext w
    by_cases hw : w.id = id <;> simp [hw, hk]
  unfold disarm
  rw [hfind]
  cases h.waits.find? fun w => w.id = id with
  | none => rfl
  | some wait =>
    refine congrArg (Prod.mk _) (hr.refreshActive_only ?_ rfl rfl)
    rw [herase]
    rfl

theorem disarm_drop (hr : h.Ringed) (hk : keep id = false) :
    (h.disarm id).2.only keep = h.only keep := by
  have herase : (h.waits.eraseP (·.id = id)).filter (fun w => keep w.id) =
      h.waits.filter fun w => keep w.id := by
    obtain heq | ⟨w, before, after, -, hw, hwaits, heq⟩ :=
      exists_or_eq_self_of_eraseP (fun w : ArmedWait => decide (w.id = id)) h.waits
    · rw [heq]
    · have hgone : keep w.id = false := by
        rw [of_decide_eq_true hw]
        exact hk
      rw [heq, hwaits]
      simp [hgone]
  unfold disarm
  split
  · rfl
  · have hringed : Ringed { h with waits := h.waits.eraseP (·.id = id) } := ⟨hr.active, hr.ring⟩
    dsimp only
    rw [hringed.refreshActive_eq]
    simp only [only, herase]

theorem disarm_ringed (hr : h.Ringed) (id : ℕ) : (h.disarm id).2.Ringed := by
  unfold disarm
  split
  · exact hr
  · exact hr.of_ring rfl rfl

/-! ### Taps -/

theorem register_only (hr : h.Ringed) (keep : ℕ → Bool) (conns : Conns) (id : ℕ) (c : ConnId)
    (dropped : ℕ) (replay : Bool) :
    (h.only keep).register conns id c dropped replay =
      ((h.register conns id c dropped replay).1, (h.register conns id c dropped replay).2.1.only keep,
        (h.register conns id c dropped replay).2.2) := by
  simp only [register_eq]
  exact Prod.ext rfl (Prod.ext (hr.refreshActive_only rfl rfl rfl) rfl)

theorem register_ringed (hr : h.Ringed) (conns : Conns) (id : ℕ) (c : ConnId) (dropped : ℕ)
    (replay : Bool) : (h.register conns id c dropped replay).2.1.Ringed := by
  rw [register_eq]
  exact hr.of_ring rfl rfl

theorem close_only (hr : h.Ringed) (keep : ℕ → Bool) (id : ℕ) :
    (h.only keep).close id = (h.close id).only keep :=
  hr.refreshActive_only rfl rfl rfl

theorem detachAll_only (h : TapHub) (keep : ℕ → Bool) (conns : Conns) (reason : TapCloseReason) :
    (h.only keep).detachAll conns reason =
      ((h.detachAll conns reason).1, (h.detachAll conns reason).2.1.only keep,
        (h.detachAll conns reason).2.2.1,
        (h.detachAll conns reason).2.2.2.filter fun e => keep e.1) := by
  simp [detachAll, only, filter_map, Function.comp_def, Bool.and_comm]

end TapHub

/-! ### Histories -/

def WaitAct.wait? : WaitAct → Option ℕ
  | .hub (.armWait id _ _ _ _) => some id
  | .hub (.disarm id) => some id
  | _ => none

inductive HubReply where
  | registered (id : ℕ) (answer : Registered)
  | armed (id : ℕ) (answer : Armed)
  | disarmed (id : ℕ) (accounting : Option WaitAccounting)
  | ended (id : ℕ) (outcome : WaitEnd)
  | detached (taps : List ℕ)

def HubReply.wait? : HubReply → Option ℕ
  | .armed id _ | .disarmed id _ | .ended id _ => some id
  | .registered _ _ | .detached _ => none

namespace TapWorld

variable {w : TapWorld} {keep : ℕ → Bool}

def watch (w : TapWorld) : WaitAct → TapWorld
  | .hub a => w.step a
  | .carry chunk =>
    let (hub, feed) := w.hub.carry w.feed chunk
    { w with hub, feed }

def replies (w : TapWorld) : WaitAct → List HubReply
  | .hub .drain =>
    match w.feed.recv with
    | (some chunk, _) => (w.hub.ingest w.conns chunk).2.2.map fun e => .ended e.1 e.2
    | (none, _) => []
  | .hub (.ingest chunk) => (w.hub.ingest w.conns chunk).2.2.map fun e => .ended e.1 e.2
  | .hub (.register id c replay) => [.registered id (w.hub.register w.conns id c 0 replay).1]
  | .hub (.armWait id matcher lookback context replay) =>
    [.armed id (w.hub.armWait id matcher lookback context replay).1]
  | .hub (.disarm id) => [.disarmed id (w.hub.disarm id).1]
  | .hub (.detachAll reason) =>
    .detached (w.hub.detachAll w.conns reason).1 ::
      (w.hub.detachAll w.conns reason).2.2.2.map fun e => .ended e.1 e.2
  | _ => []

def watched : Runs.Machine TapWorld WaitAct := ⟨watch, fun _ _ => True⟩

def HasRoom (w : TapWorld) : WaitAct → Prop
  | .hub (.armWait ..) => w.hub.waits.length < maxArmedWaits
  | _ => True

def only (w : TapWorld) (keep : ℕ → Bool) : TapWorld := { w with hub := w.hub.only keep }

theorem watch_ringed (hr : w.hub.Ringed) (a : WaitAct) : (w.watch a).hub.Ringed := by
  cases a with
  | carry chunk =>
    simp only [watch, TapHub.carry]
    split
    · exact hr
    · exact ⟨hr.active, hr.ring⟩
  | hub a =>
    cases a with
    | mirror chunk =>
      simp only [watch, step, TapHub.mirror, TapHub.carry]
      split
      · split
        · exact hr
        · exact ⟨hr.active, hr.ring⟩
      · exact ⟨hr.active, hr.ring⟩
    | skipped | attachTerminal => exact ⟨hr.active, hr.ring⟩
    | drain =>
      simp only [watch, step, drainFeed]
      split
      · exact TapHub.ingest_ringed hr _ _
      · exact hr
    | ingest chunk => exact TapHub.ingest_ringed hr _ _
    | register id c replay => exact TapHub.register_ringed hr _ _ _ _ _
    | close id => exact hr.of_ring rfl rfl
    | armWait id matcher lookback context replay => exact TapHub.armWait_ringed hr ..
    | disarm id => exact TapHub.disarm_ringed hr id
    | detachAll reason => exact ⟨rfl, fun h => by cases h⟩
    | receive c =>
      simp only [watch, step, receiveOn]
      split <;> exact hr
    | foreign | hangUp => exact hr

theorem filter_ended (keep : ℕ → Bool) (ended : List (ℕ × WaitEnd)) :
    (ended.filter fun e => keep e.1).map (fun e => HubReply.ended e.1 e.2) =
      (ended.map fun e => HubReply.ended e.1 e.2).filter (·.wait?.all keep) := by
  rw [filter_map]
  rfl

theorem ingestChunk_only (hr : w.hub.Ringed) (keep : ℕ → Bool) (chunk : Chunk) :
    (w.only keep).ingestChunk chunk = (w.ingestChunk chunk).only keep := by
  simp only [ingestChunk, only, TapHub.ingest_only hr]
  rfl

theorem watch_only (hr : w.hub.Ringed) {a : WaitAct} (hk : a.wait?.all keep = true)
    (hroom : a.wait?.isSome = true → w.HasRoom a) :
    (w.only keep).watch a = (w.watch a).only keep ∧
      (w.only keep).replies a = (w.replies a).filter (·.wait?.all keep) := by
  cases a with
  | carry chunk =>
    refine ⟨?_, rfl⟩
    simp only [watch, only, TapHub.carry_only]
  | hub a =>
    cases a with
    | mirror chunk =>
      refine ⟨?_, rfl⟩
      simp only [watch, step, only, TapHub.mirror_only]
    | drain =>
      have hfeed : (w.only keep).feed = w.feed := rfl
      simp only [watch, step, drainFeed, replies, hfeed]
      rcases w.feed.recv with ⟨_ | chunk, feed⟩
      · exact ⟨rfl, rfl⟩
      · have hr' : TapHub.Ringed ({ w with feed } : TapWorld).hub := hr
        refine ⟨ingestChunk_only hr' keep chunk, ?_⟩
        simp only [only, TapHub.ingest_only hr]
        exact filter_ended keep _
    | ingest chunk =>
      refine ⟨ingestChunk_only hr keep chunk, ?_⟩
      simp only [replies, only, TapHub.ingest_only hr]
      exact filter_ended keep _
    | register id c replay =>
      simp only [watch, step, registerTap, replies, only, TapHub.register_only hr]
      exact ⟨rfl, rfl⟩
    | close id =>
      refine ⟨?_, rfl⟩
      simp only [watch, step, only, TapHub.close_only hr]
    | armWait id matcher lookback context replay =>
      have hsame := TapHub.armWait_only hr hk matcher lookback context replay (hroom rfl)
      simp only [watch, step, replies, only, hsame]
      rw [filter_cons_of_pos (by exact hk)]
      exact ⟨trivial, rfl⟩
    | disarm id =>
      have hsame := TapHub.disarm_only hr hk
      simp only [watch, step, replies, only, hsame]
      rw [filter_cons_of_pos (by exact hk)]
      exact ⟨trivial, rfl⟩
    | detachAll reason =>
      simp only [watch, step, detach, replies, only, TapHub.detachAll_only, filter_ended]
      exact ⟨rfl, rfl⟩
    | receive c =>
      have hconns : (w.only keep).conns = w.conns := rfl
      refine ⟨?_, rfl⟩
      simp only [watch, step, receiveOn, hconns]
      rcases (w.conns c).out.recv with ⟨_ | msg, out⟩
      · rfl
      · rfl
    | skipped | attachTerminal | foreign | hangUp => exact ⟨rfl, rfl⟩

theorem watch_drop (hr : w.hub.Ringed) {a : WaitAct} (hk : a.wait?.all keep = false) :
    (w.watch a).only keep = w.only keep ∧ (w.replies a).filter (·.wait?.all keep) = [] := by
  cases a with
  | carry chunk => cases hk
  | hub a =>
    cases a with
    | armWait id matcher lookback context replay =>
      refine ⟨congrArg (fun hub => { w with hub }) (TapHub.armWait_drop hr hk ..), ?_⟩
      exact filter_cons_of_neg (ne_true_of_eq_false hk)
    | disarm id =>
      refine ⟨congrArg (fun hub => { w with hub }) (TapHub.disarm_drop hr hk), ?_⟩
      exact filter_cons_of_neg (ne_true_of_eq_false hk)
    | mirror | skipped | drain | ingest | register | attachTerminal | close | detachAll | receive
    | foreign | hangUp => cases hk

theorem run_only (hr : w.hub.Ringed) {history : List WaitAct}
    (hroom : watched.Each (fun w a => a.wait?.any keep = true → w.HasRoom a) w history) :
    watched.run (w.only keep) (history.filter (·.wait?.all keep)) =
        (watched.run w history).only keep ∧
      watched.outputs replies (w.only keep) (history.filter (·.wait?.all keep)) =
        (watched.outputs replies w history).filter (·.wait?.all keep) := by
  refine Runs.Machine.run_deletion (m := watched) (I := fun w => w.hub.Ringed) (·.only keep)
    (fun a : WaitAct => a.wait?.all keep) (fun r : HubReply => r.wait?.all keep)
    (fun _ a hr => watch_ringed hr a) ?_ ?_ hr hroom
  · intro w a hr hroom hk
    refine watch_only hr hk fun hsome => hroom ?_
    obtain ⟨id, hid⟩ := Option.isSome_iff_exists.mp hsome
    rw [hid] at hk ⊢
    exact hk
  · intro w a hr hk
    exact watch_drop hr hk

theorem start_ringed (endpoint : String) {ringCap : ℕ} (hring : 0 < ringCap) (epoch feedCap : ℕ)
    (conns : Conns) : (start endpoint ringCap epoch feedCap conns).hub.Ringed := by
  constructor
  · simp [start, TapHub.new, hring]
  · simp [start, TapHub.new, hring]

theorem start_only (endpoint : String) (ringCap epoch feedCap : ℕ) (conns : Conns)
    (keep : ℕ → Bool) :
    (start endpoint ringCap epoch feedCap conns).only keep =
      start endpoint ringCap epoch feedCap conns := rfl

theorem pattern_waits_invisible (endpoint : String) {ringCap : ℕ} (hring : 0 < ringCap)
    (epoch feedCap : ℕ) (conns : Conns) (history : List WaitAct) :
    let w := start endpoint ringCap epoch feedCap conns
    let full := watched.run w history
    let bare := watched.run w (history.filter (·.wait?.isNone))
    (bare.hub.ring = full.hub.ring ∧ bare.hub.ingested = full.hub.ingested ∧
      bare.hub.feedDropped = full.hub.feedDropped ∧ bare.hub.taps = full.hub.taps ∧
      bare.feed = full.feed ∧ bare.conns = full.conns ∧ bare.sent = full.sent ∧
      bare.received = full.received ∧
      watched.outputs replies w (history.filter (·.wait?.isNone)) =
        (watched.outputs replies w history).filter (·.wait?.isNone)) ∧
    ∀ id, watched.Each HasRoom w history →
      let rest := history.filter fun a => decide (a.wait? ≠ some id)
      (watched.run w rest).hub.waits = full.hub.waits.filter (fun wait => decide (wait.id ≠ id)) ∧
        watched.outputs replies w rest =
          (watched.outputs replies w history).filter fun r => decide (r.wait? ≠ some id) := by
  intro w full bare
  have hr : w.hub.Ringed := start_ringed endpoint hring epoch feedCap conns
  constructor
  · have hnone : ∀ o : Option ℕ, o.all (fun _ => false) = o.isNone := by
      rintro (_ | _) <;> rfl
    have hroom : watched.Each
        (fun w a => a.wait?.any (fun _ => false) = true → w.HasRoom a) w history :=
      Runs.Machine.each_of_forall (fun _ a hany => by simp at hany) _ _
    obtain ⟨hrun, hout⟩ := run_only hr hroom
    simp only [hnone] at hrun hout
    rw [start_only] at hrun
    rw [show bare = full.only _ from hrun]
    exact ⟨rfl, rfl, rfl, rfl, rfl, rfl, rfl, rfl, hout⟩
  · intro id hroom rest
    have hother : ∀ o : Option ℕ, o.all (fun i => decide (i ≠ id)) = decide (o ≠ some id) := by
      rintro (_ | i) <;> simp
    have hroom' : watched.Each
        (fun w a => a.wait?.any (fun i => decide (i ≠ id)) = true → w.HasRoom a) w history := by
      refine hroom.imp ?_
      intro w a ha _
      exact ha
    obtain ⟨hrun, hout⟩ := run_only hr hroom'
    simp only [hother] at hrun hout
    exact ⟨congrArg (·.hub.waits) hrun, hout⟩

def twoWaits : List WaitAct :=
  [.hub (.register 7 0 true), .hub (.armWait 1 (.literals [⟨"A", .literal, [0x41]⟩]) 16 0 false),
    .hub (.armWait 2 (.literals [⟨"B", .literal, [0x42]⟩]) 16 0 true), .hub (.mirror [0x41]), .hub .drain,
    .hub (.disarm 2)]

theorem pattern_waits_invisible_twoWaits :
    let w := start "usb0" 8 1 4 oneSlot
    (watched.outputs replies w twoWaits).map (·.wait?) = [none, some 1, some 2, some 1, some 2] ∧
      (watched.run w (twoWaits.filter (·.wait?.isNone))).sent = (watched.run w twoWaits).sent ∧
      watched.outputs replies w (twoWaits.filter fun a => decide (a.wait? ≠ some 1)) =
        (watched.outputs replies w twoWaits).filter fun r => decide (r.wait? ≠ some 1) := by
  have hinv := pattern_waits_invisible "usb0" (show 0 < 8 by decide) 1 4 oneSlot twoWaits
  have hroom : watched.Each HasRoom (start "usb0" 8 1 4 oneSlot) twoWaits := by
    refine ⟨trivial, ?_, ?_, trivial, trivial, trivial, trivial⟩
    · change _ < maxArmedWaits
      decide +kernel
    · change _ < maxArmedWaits
      decide +kernel
  refine ⟨by decide +kernel, ?_, (hinv.2 1 hroom).2⟩
  obtain ⟨-, -, -, -, -, -, hsent, -⟩ := hinv.1
  exact hsent

end TapWorld
end SerialNexus
