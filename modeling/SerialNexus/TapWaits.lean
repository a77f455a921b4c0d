import SerialNexus.TapGaps

/-! # The life of a tap hub

`WaitWorld` adds to `TapWorld` what its producer and its pattern waits have been through.  Chunks
reach the hub through its feed only.  The producer runs on another thread, so what it read of
`active` may be out of date when it acts: `skipped` charges bytes at any time, and `carry` offers a
chunk whatever `active` says now. -/

namespace SerialNexus

open List

def WaitEnd.hit? : WaitEnd → Option PatternMatch
  | .matched hit _ => some hit
  | .closed _ _ => none

structure WaitWorld where
  tap : TapWorld
  produced : ℕ
  lost : ℕ
  origins : List ℕ
  heard : List ℕ
  parked : List ℕ
  disarmed : List ℕ
  ended : List (ℕ × WaitEnd)
  settled : List PatternMatch

inductive WaitAct where
  | hub (a : TapAct)
  | carry (chunk : Chunk)

namespace WaitWorld

def start (endpoint : String) (ringCap epoch feedCap : ℕ) (conns : Conns) : WaitWorld where
  tap := TapWorld.start endpoint ringCap epoch feedCap conns
  produced := 0
  lost := 0
  origins := []
  heard := []
  parked := []
  disarmed := []
  ended := []
  settled := []

variable (w : WaitWorld)

def charged (tap : TapWorld) (n : ℕ) : WaitWorld :=
  { w with tap, produced := w.produced + n, lost := w.lost + n }

def carried (tap : TapWorld) (chunk : Chunk) : WaitWorld :=
  { w with tap, produced := w.produced + chunk.length, origins := w.origins ++ [w.produced] }

def offered (tap : TapWorld) (chunk : Chunk) : WaitWorld :=
  if w.tap.feed.queue.length < tap.feed.queue.length then w.carried tap chunk
  else w.charged tap chunk.length

def drained : WaitWorld :=
  match w.tap.feed.recv.1 with
  | none => w
  | some chunk =>
    let ended := (w.tap.hub.ingest w.tap.conns chunk).2.2
    { w with
      tap := w.tap.drainFeed
      origins := w.origins.tail
      heard := w.heard ++ List.range' (w.origins.headD 0) chunk.length
      ended := w.ended ++ ended
      settled := w.settled ++ ended.filterMap (·.2.hit?) }

def armed (tap : TapWorld) (id : ℕ) : Armed → WaitWorld
  | .parked => { w with tap, parked := w.parked ++ [id] }
  | .alreadyMatched hit _ => { w with tap, settled := w.settled ++ [hit] }
  | .refused _ _ => { w with tap }

def step : WaitAct → WaitWorld
  | .carry chunk =>
    let (hub, feed) := w.tap.hub.carry w.tap.feed chunk
    w.offered { w.tap with hub, feed } chunk
  | .hub (.mirror chunk) => w.offered (w.tap.step (.mirror chunk)) chunk
  | .hub (.skipped n) => w.charged (w.tap.step (.skipped n)) n
  | .hub .drain => w.drained
  | .hub (.armWait id matcher lookback context replay) =>
    w.armed (w.tap.step (.armWait id matcher lookback context replay)) id
      (w.tap.hub.armWait id matcher lookback context replay).1
  | .hub (.disarm id) =>
    match (w.tap.hub.disarm id).1 with
    | some _ => { w with tap := w.tap.step (.disarm id), disarmed := w.disarmed ++ [id] }
    | none => { w with tap := w.tap.step (.disarm id) }
  | .hub (.detachAll reason) =>
    { w with
      tap := w.tap.step (.detachAll reason)
      ended := w.ended ++ (w.tap.hub.detachAll w.tap.conns reason).2.2.2 }
  | .hub a => { w with tap := w.tap.step a }

def Allowed : WaitAct → Prop
  | .hub (.ingest _) => False
  | .hub (.armWait id _ _ _ _) => id ∉ w.parked
  | .hub a => w.tap.Allowed a
  | .carry _ => True

def machine : Runs.Machine WaitWorld WaitAct := ⟨step, Allowed⟩

end WaitWorld

section outcomes
variable {parked armed kept ended disarmed new : List ℕ}

theorem perm_arm (h : parked.Perm (armed ++ (ended ++ disarmed))) :
    (parked ++ new).Perm (armed ++ new ++ (ended ++ disarmed)) := by
  refine (h.append_right new).trans ?_
  rw [append_assoc armed, append_assoc armed]
  exact List.perm_append_comm.append_left armed

theorem perm_end (h : armed.Perm (kept ++ new)) :
    (armed ++ (ended ++ disarmed)).Perm (kept ++ (ended ++ new ++ disarmed)) := by
  refine (h.append_right _).trans ?_
  rw [append_assoc, ← append_assoc new]
  exact (List.perm_append_comm.append_right disarmed).append_left kept

theorem perm_disarm (h : armed.Perm (kept ++ new)) :
    (armed ++ (ended ++ disarmed)).Perm (kept ++ (ended ++ (disarmed ++ new))) := by
  refine (h.append_right _).trans ?_
  rw [append_assoc, ← append_assoc ended]
  exact List.perm_append_comm.append_left kept

end outcomes

namespace TapHub

def FlagRight (h : TapHub) : Prop :=
  h.active = (!h.orphaned && (h.ring.isSome || !h.taps.isEmpty || !h.waits.isEmpty))

theorem feedWaits_outcomes (chunk : Chunk) (gap epoch : ℕ) {waits : List ArmedWait}
    (hdone : ∀ w ∈ waits, w.done = true) :
    (∀ w ∈ (feedWaits chunk gap epoch waits).1, w.done = true) ∧
      (feedWaits chunk gap epoch waits).1.length ≤ waits.length ∧
      (waits.map (·.id)).Perm ((feedWaits chunk gap epoch waits).1.map (·.id) ++
        (feedWaits chunk gap epoch waits).2.map (·.1)) := by
  induction waits with
  | nil => exact ⟨hdone, le_rfl, .nil⟩
  | cons wait waits ih =>
    obtain ⟨hkept, hlength, hperm⟩ := ih fun w hw => hdone w (mem_cons_of_mem _ hw)
    have hd := hdone wait mem_cons_self
    rw [feedWaits]
    dsimp only
    split
    · refine ⟨?_, Nat.succ_le_succ hlength, hperm.cons wait.id⟩
      rintro w (_ | ⟨_, hw⟩)
      · exact hd
      · exact hkept w hw
    · rw [if_pos hd]
      refine ⟨hkept, Nat.le_succ_of_le hlength, ?_⟩
      exact (hperm.cons wait.id).trans List.perm_middle.symm

theorem disarm_outcomes (h : TapHub) (id : ℕ) :
    (h.disarm id).2.waits ⊆ h.waits ∧ (h.disarm id).2.waits.length ≤ h.waits.length ∧
      (h.waits.map (·.id)).Perm ((h.disarm id).2.waits.map (·.id) ++
        if (h.disarm id).1.isSome then [id] else []) := by
  unfold disarm
  cases hfind : h.waits.find? (fun w => decide (w.id = id)) with
  | none => simp
  | some wait =>
    have hid : wait.id = id := by simpa using find?_some hfind
    obtain ⟨a, l₁, l₂, -, ha, hwaits, herase⟩ :=
      exists_of_eraseP (p := fun w : ArmedWait => decide (w.id = id))
        (mem_of_find?_eq_some hfind) (decide_eq_true hid)
    simp only [refreshActive, herase, Option.isSome_some, if_true]
    rw [hwaits]
    refine ⟨?_, by simp, ?_⟩
    · exact ((List.sublist_cons_self a l₂).append_left l₁).subset
    · rw [← of_decide_eq_true ha]
      simpa using List.perm_middle.trans (List.perm_append_singleton a.id _).symm

theorem armWait_outcomes (h : TapHub) (id : ℕ) (matcher : Matcher) (lookback context : ℕ)
    (replay : Bool) :
    (∃ armed max, h.armWait id matcher lookback context replay = (.refused armed max, h)) ∨
      (∃ hit accounting,
        h.armWait id matcher lookback context replay = (.alreadyMatched hit accounting, h)) ∨
      h.waits.length < maxArmedWaits ∧
        ∃ wait : ArmedWait, wait.id = id ∧ wait.done = true ∧
          h.armWait id matcher lookback context replay =
            (.parked, { h with waits := h.waits ++ [wait] }.refreshActive) := by
  unfold armWait
  by_cases hmax : h.waits.length ≥ maxArmedWaits
  · rw [if_pos hmax]
    exact .inl ⟨_, _, rfl⟩
  · rw [if_neg hmax]
    dsimp only
    split
    · exact .inr (.inl ⟨_, _, rfl⟩)
    · exact .inr (.inr ⟨Nat.lt_of_not_le hmax, _, rfl, rfl, rfl⟩)

end TapHub

def Conns.Adds (a b : Conns) (q l : ConnId → List TapMsg) : Prop :=
  ∀ c, (b c).out.queue = (a c).out.queue ++ q c ∧ (b c).lane = (a c).lane ++ l c ∧
    (b c).out.isOpen = (a c).out.isOpen

structure ToldOnce (msg : TapMsg) (out lane : ConnId) (q l : ConnId → List TapMsg) : Prop where
  once : (q out).count msg + (l lane).count msg = 1
  queue : ∀ c ≠ out, msg ∉ q c
  lane : ∀ c ≠ lane, msg ∉ l c

section told
variable {msg : TapMsg} {out lane : ConnId} {q l q' l' : ConnId → List TapMsg}

theorem ToldOnce.append (h : ToldOnce msg out lane q l) (hq : ∀ c, msg ∉ q' c)
    (hl : ∀ c, msg ∉ l' c) :
    ToldOnce msg out lane (fun c => q c ++ q' c) (fun c => l c ++ l' c) where
  once := by
    rw [count_append, count_append, count_eq_zero_of_not_mem (hq out),
      count_eq_zero_of_not_mem (hl lane)]
    exact h.once
  queue c hc := by simp [h.queue c hc, hq c]
  lane c hc := by simp [h.lane c hc, hl c]

theorem ToldOnce.prepend (h : ToldOnce msg out lane q l) (hq : ∀ c, msg ∉ q' c)
    (hl : ∀ c, msg ∉ l' c) :
    ToldOnce msg out lane (fun c => q' c ++ q c) (fun c => l' c ++ l c) where
  once := by
    rw [count_append, count_append, count_eq_zero_of_not_mem (hq out),
      count_eq_zero_of_not_mem (hl lane), Nat.zero_add, Nat.zero_add]
    exact h.once
  queue c hc := by simp [h.queue c hc, hq c]
  lane c hc := by simp [h.lane c hc, hl c]

end told

namespace TapHub

theorem tellClosed_told (endpoint reason : String) (tap : Tap) (conns : Conns) :
    ∃ q l, conns.Adds (tellClosed endpoint reason tap conns) q l ∧
      (∀ c m, m ∈ q c ∨ m ∈ l c → m = .closed tap.id endpoint reason) ∧
      ∀ lane, tap.terminal = some lane → (conns tap.out).out.isOpen = true →
        ToldOnce (.closed tap.id endpoint reason) tap.out lane q l := by
  have hnothing : conns.Adds conns (fun _ => []) (fun _ => []) := fun c => by simp
  unfold tellClosed
  rcases conns.trySend_cases tap.out (.closed tap.id endpoint reason) with
    ⟨hopen, -, hok⟩ | ⟨hopen, -, hfull, hsame⟩ | ⟨hopen, hclosed, hsame⟩
  · refine ⟨fun c => if c = tap.out then [.closed tap.id endpoint reason] else [], fun _ => [],
      ?_, ?_, fun lane _ _ => ⟨by simp, fun c hc => by simp [hc], by simp⟩⟩
    · intro c
      have hx := conns.trySend_extends tap.out (.closed tap.id endpoint reason)
      have hqueue := hx.queue c
      rw [Conns.queued_trySend] at hqueue
      simp only [hok, and_true] at hqueue ⊢
      refine ⟨hqueue.symm, ?_, hx.isOpen c⟩
      rw [append_nil, Conns.trySend]
      by_cases hc : c = tap.out
      · simp [hc]
      · simp [hc]
    · intro c m hm
      dsimp only at hm
      split_ifs at hm
      · simpa using hm
      · simp at hm
  · simp only [hfull, hsame]
    cases hlane : tap.terminal with
    | none => exact ⟨_, _, hnothing, by simp, by simp⟩
    | some lane =>
      refine ⟨fun _ => [], fun c => if c = lane then [.closed tap.id endpoint reason] else [],
        ?_, ?_, ?_⟩
      · intro c
        by_cases hc : c = lane
        · subst hc
          simp
        · simp [hc]
      · intro c m hm
        dsimp only at hm
        split_ifs at hm
        · simpa using hm
        · simp at hm
      · rintro lane' ⟨⟩ -
        exact ⟨by simp, by simp, fun c hc => by simp [hc]⟩
  · simp only [hclosed, hsame]
    refine ⟨_, _, hnothing, by simp, fun lane _ h => ?_⟩
    rw [hopen] at h
    cases h

theorem closeTaps_told (endpoint reason : String) {taps : List Tap}
    (hnd : (taps.map (·.id)).Nodup) (conns : Conns) :
    ∃ q l, conns.Adds (closeTaps endpoint reason taps conns) q l ∧
      (∀ c m, m ∈ q c ∨ m ∈ l c → ∃ t ∈ taps, m = .closed t.id endpoint reason) ∧
      ∀ t ∈ taps, ∀ lane, t.terminal = some lane → (conns t.out).out.isOpen = true →
        ToldOnce (.closed t.id endpoint reason) t.out lane q l := by
  induction taps generalizing conns with
  | nil => exact ⟨fun _ => [], fun _ => [], fun c => by simp [closeTaps], by simp, nofun⟩
  | cons tap taps ih =>
    obtain ⟨hnew, hnd⟩ := nodup_cons.mp hnd
    obtain ⟨q, l, hadds, honly, htold⟩ := tellClosed_told endpoint reason tap conns
    obtain ⟨q', l', hadds', honly', htold'⟩ := ih hnd (tellClosed endpoint reason tap conns)
    have hother : ∀ t ∈ taps, TapMsg.closed t.id endpoint reason ≠ .closed tap.id endpoint reason := by
      rintro t ht heq
      injection heq with hid
      exact hnew (mem_map.mpr ⟨t, ht, hid⟩)
    refine ⟨fun c => q c ++ q' c, fun c => l c ++ l' c, ?_, ?_, ?_⟩
    · intro c
      obtain ⟨hq, hl, ho⟩ := hadds c
      obtain ⟨hq', hl', ho'⟩ := hadds' c
      rw [closeTaps, hq', hl', hq, hl, ho', append_assoc, append_assoc]
      exact ⟨rfl, rfl, ho⟩
    · intro c m hm
      simp only [mem_append] at hm
      by_cases hfirst : m ∈ q c ∨ m ∈ l c
      · exact ⟨tap, mem_cons_self, honly c m hfirst⟩
      · obtain ⟨t, ht, heq⟩ := honly' c m (by tauto)
        exact ⟨t, mem_cons_of_mem _ ht, heq⟩
    · intro t ht lane hlane hopen
      rcases mem_cons.mp ht with rfl | ht
      · refine (htold lane hlane hopen).append (fun c hm => ?_) fun c hm => ?_
        · obtain ⟨t', ht', heq⟩ := honly' c _ (.inl hm)
          exact hother t' ht' heq.symm
        · obtain ⟨t', ht', heq⟩ := honly' c _ (.inr hm)
          exact hother t' ht' heq.symm
      · refine (htold' t ht lane hlane ((hadds t.out).2.2.trans hopen)).prepend
          (fun c hm => ?_) fun c hm => ?_
        · exact hother t ht (honly c _ (.inl hm))
        · exact hother t ht (honly c _ (.inr hm))

end TapHub

namespace WaitWorld

structure Kept (w : WaitWorld) : Prop where
  flag : w.tap.hub.FlagRight
  armed : w.tap.hub.waits.length ≤ maxArmedWaits
  done : ∀ wait ∈ w.tap.hub.waits, wait.done = true
  parked : w.parked.Nodup
  outcomes : w.parked.Perm
    (w.tap.hub.waits.map (·.id) ++ (w.ended.map (·.1) ++ w.disarmed))
  conserved : w.produced = w.tap.stream.length + (w.tap.feed.queue.map (·.length)).sum + w.lost
  ingested : w.tap.hub.ingested = w.tap.stream.length % u64Size
  dropped : w.tap.hub.feedDropped = w.lost % u64Size

variable {w : WaitWorld}

variable {tap : TapWorld} {chunk : Chunk} {a : WaitAct}

theorem Kept.of_tap (hw : w.Kept) (hflag : tap.hub.FlagRight)
    (hwaits : tap.hub.waits = w.tap.hub.waits) (hfeed : tap.feed = w.tap.feed)
    (hstream : tap.stream = w.tap.stream) (hingested : tap.hub.ingested = w.tap.hub.ingested)
    (hdropped : tap.hub.feedDropped = w.tap.hub.feedDropped) : Kept { w with tap } where
  flag := hflag
  armed := by
    rw [hwaits]
    exact hw.armed
  done := by
    rw [hwaits]
    exact hw.done
  parked := hw.parked
  outcomes := by
    rw [hwaits]
    exact hw.outcomes
  conserved := by
    rw [hstream, hfeed]
    exact hw.conserved
  ingested := by
    rw [hingested, hstream]
    exact hw.ingested
  dropped := by
    rw [hdropped]
    exact hw.dropped

theorem start_kept (endpoint : String) (ringCap epoch feedCap : ℕ) (conns : Conns) :
    (start endpoint ringCap epoch feedCap conns).Kept where
  flag := by
    simp only [TapHub.FlagRight, start, TapWorld.start, TapHub.new]
    by_cases hring : ringCap > 0 <;> simp [hring]
  armed := Nat.zero_le _
  done := nofun
  parked := nodup_nil
  outcomes := .nil
  conserved := rfl
  ingested := rfl
  dropped := rfl

theorem Kept.charged (hw : w.Kept) (n : ℕ) :
    (w.charged { w.tap with hub := w.tap.hub.skipped n } n).Kept where
  flag := hw.flag
  armed := hw.armed
  done := hw.done
  parked := hw.parked
  outcomes := hw.outcomes
  conserved := by
    have := hw.conserved
    dsimp only [WaitWorld.charged]
    omega
  ingested := hw.ingested
  dropped := by
    change wrappingAdd w.tap.hub.feedDropped n = (w.lost + n) % u64Size
    rw [hw.dropped, wrappingAdd_mod]

theorem Kept.carried (hw : w.Kept) {feed : Channel Chunk}
    (hfeed : feed.queue = w.tap.feed.queue ++ [chunk]) :
    (w.carried { w.tap with feed } chunk).Kept where
  flag := hw.flag
  armed := hw.armed
  done := hw.done
  parked := hw.parked
  outcomes := hw.outcomes
  conserved := by
    have := hw.conserved
    dsimp only [WaitWorld.carried]
    rw [hfeed, map_append, sum_append, map_singleton, sum_singleton]
    omega
  ingested := hw.ingested
  dropped := hw.dropped

theorem carry_cases (h : TapHub) (feed : Channel Chunk) (chunk : Chunk) :
    (∃ feed', feed'.queue = feed.queue ++ [chunk] ∧ h.carry feed chunk = (h, feed')) ∨
      h.carry feed chunk = (h.skipped chunk.length, feed) := by
  unfold TapHub.carry
  rcases feed.trySend_cases chunk with ⟨-, -, hok, hq⟩ | ⟨-, -, hfull⟩ | ⟨-, hclosed⟩
  · refine .inl ⟨(feed.trySend chunk).2, hq, ?_⟩
    rw [← Prod.mk.eta (p := feed.trySend chunk), hok]
  · rw [hfull]
    exact .inr rfl
  · rw [hclosed]
    exact .inr rfl

theorem step_offer (ha : a = .carry chunk ∨ a = .hub (.mirror chunk)) :
    (∃ feed : Channel Chunk, feed.queue = w.tap.feed.queue ++ [chunk] ∧
      w.step a = w.carried { w.tap with feed } chunk) ∨
    w.step a = w.charged { w.tap with hub := w.tap.hub.skipped chunk.length } chunk.length := by
  have hoffered (r : TapHub × Channel Chunk)
      (hr : (∃ feed', feed'.queue = w.tap.feed.queue ++ [chunk] ∧ r = (w.tap.hub, feed')) ∨
        r = (w.tap.hub.skipped chunk.length, w.tap.feed)) :
      (∃ feed : Channel Chunk, feed.queue = w.tap.feed.queue ++ [chunk] ∧
        w.offered { w.tap with hub := r.1, feed := r.2 } chunk =
          w.carried { w.tap with feed } chunk) ∨
      w.offered { w.tap with hub := r.1, feed := r.2 } chunk =
        w.charged { w.tap with hub := w.tap.hub.skipped chunk.length } chunk.length := by
    unfold offered
    rcases hr with ⟨feed', hq, rfl⟩ | rfl
    · exact .inl ⟨feed', hq, if_pos (by simp [hq])⟩
    · exact .inr (if_neg (by simp))
  have hcarry := carry_cases w.tap.hub w.tap.feed chunk
  rcases ha with rfl | rfl
  · exact hoffered _ hcarry
  · refine hoffered (w.tap.hub.mirror w.tap.feed chunk) ?_
    rw [TapHub.mirror]
    split_ifs
    · exact hcarry
    · exact .inr rfl

theorem offer_kept (hw : w.Kept) (ha : a = .carry chunk ∨ a = .hub (.mirror chunk)) :
    (w.step a).Kept := by
  rcases step_offer (w := w) ha with ⟨feed, hq, heq⟩ | heq
  · rw [heq]
    exact hw.carried hq
  · rw [heq]
    exact hw.charged chunk.length

/-! ### The hub -/

theorem drainFeed_eq (hrecv : tap.feed.recv.1 = some chunk) :
    tap.drainFeed = { tap with feed := tap.feed.recv.2 }.ingestChunk chunk := by
  unfold TapWorld.drainFeed
  rw [← Prod.mk.eta (p := tap.feed.recv), hrecv]

theorem drained_kept (hw : w.Kept) : w.drained.Kept := by
  unfold drained
  cases hrecv : w.tap.feed.recv.1 with
  | none => exact hw
  | some chunk =>
    have hqueue := w.tap.feed.recv_queue
    rw [hrecv] at hqueue
    obtain ⟨hdone, hlength, hperm⟩ :=
      TapHub.feedWaits_outcomes chunk w.tap.hub.gapBefore w.tap.hub.epoch hw.done
    dsimp only
    rw [drainFeed_eq hrecv]
    refine ⟨rfl, hlength.trans hw.armed, hdone, hw.parked, ?_, ?_, ?_, hw.dropped⟩
    · refine hw.outcomes.trans ?_
      simp only [map_append]
      exact perm_end hperm
    · have := hw.conserved
      rw [← hqueue, Option.toList_some, singleton_append, map_cons, sum_cons] at this
      change w.produced = (w.tap.stream ++ chunk).length + _ + w.lost
      rw [length_append]
      dsimp only [TapWorld.ingestChunk, TapWorld.commit]
      omega
    · change wrappingAdd w.tap.hub.ingested chunk.length = (w.tap.stream ++ chunk).length % u64Size
      rw [hw.ingested, wrappingAdd_mod, length_append]

theorem armWait_kept (hw : w.Kept) (id : ℕ) (matcher : Matcher) (lookback context : ℕ)
    (replay : Bool) (hid : id ∉ w.parked) :
    (w.step (.hub (.armWait id matcher lookback context replay))).Kept := by
  simp only [step, TapWorld.step]
  rcases w.tap.hub.armWait_outcomes id matcher lookback context replay with
    ⟨_, _, heq⟩ | ⟨hit, _, heq⟩ | ⟨hmax, wait, hwait, hdone, heq⟩
  · rw [heq]
    exact hw
  · rw [heq]
    exact ⟨hw.flag, hw.armed, hw.done, hw.parked, hw.outcomes, hw.conserved, hw.ingested,
      hw.dropped⟩
  · rw [heq]
    refine ⟨rfl, ?_, ?_, ?_, ?_, hw.conserved, hw.ingested, hw.dropped⟩
    · simpa [armed, TapHub.refreshActive] using hmax
    · intro wait' hmem
      rcases mem_append.mp hmem with hmem | hmem
      · exact hw.done wait' hmem
      · exact mem_singleton.mp hmem ▸ hdone
    · exact nodup_append.mpr ⟨hw.parked, nodup_singleton id, by
        rintro x hx y hy rfl
        exact hid (mem_singleton.mp hy ▸ hx)⟩
    · simp only [armed, TapHub.refreshActive, map_append, map_singleton, hwait]
      exact perm_arm hw.outcomes

theorem disarm_kept (hw : w.Kept) (id : ℕ) : (w.step (.hub (.disarm id))).Kept := by
  obtain ⟨hsub, hlength, hperm⟩ := w.tap.hub.disarm_outcomes id
  obtain ⟨hingested, hring, htaps⟩ := TapWorld.disarm_same w.tap.hub id
  have hflag : (w.tap.hub.disarm id).2.FlagRight := by
    unfold TapHub.disarm
    split
    · exact hw.flag
    · rfl
  obtain ⟨hdropped, -⟩ := TapWorld.disarm_feed w.tap.hub id
  simp only [step, TapWorld.step]
  cases hanswer : (w.tap.hub.disarm id).1 with
  | none =>
    rw [hanswer] at hperm
    refine ⟨hflag, hlength.trans hw.armed, fun x hx => hw.done x (hsub hx), hw.parked, ?_,
      hw.conserved, hingested.trans hw.ingested, hdropped.trans hw.dropped⟩
    exact hw.outcomes.trans (by simpa using hperm.append_right _)
  | some accounting =>
    rw [hanswer] at hperm
    refine ⟨hflag, hlength.trans hw.armed, fun x hx => hw.done x (hsub hx), hw.parked, ?_,
      hw.conserved, hingested.trans hw.ingested, hdropped.trans hw.dropped⟩
    exact hw.outcomes.trans (perm_disarm hperm)

theorem detachAll_kept (hw : w.Kept) (reason : TapCloseReason) :
    (w.step (.hub (.detachAll reason))).Kept := by
  have hall : w.tap.hub.waits.filter (·.done) = w.tap.hub.waits := filter_eq_self.mpr hw.done
  refine ⟨rfl, Nat.zero_le _, nofun, hw.parked, hw.outcomes.trans ?_, hw.conserved, hw.ingested,
    hw.dropped⟩
  simp only [step, TapWorld.step, TapWorld.detach, TapWorld.commit, TapHub.detachAll, hall,
    map_append, map_map]
  exact perm_end (.refl _)

theorem setTerminal_isEmpty (id : ℕ) (c : ConnId) (taps : List Tap) :
    (TapHub.setTerminal id c taps).isEmpty = taps.isEmpty := by
  cases taps with
  | nil => rfl
  | cons tap taps =>
    rw [TapHub.setTerminal]
    split_ifs <;> rfl

theorem step_kept (hw : w.Kept) (a : WaitAct) (ha : w.Allowed a) : (w.step a).Kept := by
  cases a with
  | carry chunk => exact offer_kept hw (.inl rfl)
  | hub a =>
    cases a with
    | mirror chunk => exact offer_kept hw (.inr rfl)
    | skipped n => exact hw.charged n
    | drain => exact drained_kept hw
    | ingest chunk => exact ha.elim
    | register id c replay =>
      have heq := w.tap.hub.register_eq w.tap.conns id c 0 replay
      refine hw.of_tap ?_ ?_ rfl rfl ?_ ?_
      all_goals
        simp only [TapWorld.step, TapWorld.registerTap, TapWorld.commit, heq]
        rfl
    | attachTerminal id c =>
      refine hw.of_tap ?_ rfl rfl rfl rfl rfl
      have := hw.flag
      simp only [TapHub.FlagRight, TapWorld.step, TapHub.attachTerminal, setTerminal_isEmpty]
        at this ⊢
      exact this
    | close id => exact hw.of_tap rfl rfl rfl rfl rfl rfl
    | armWait id matcher lookback context replay =>
      exact armWait_kept hw id matcher lookback context replay ha
    | disarm id => exact disarm_kept hw id
    | detachAll reason => exact detachAll_kept hw reason
    | receive c =>
      have hsame : ∀ tap, tap = w.tap.step (.receive c) → Kept { w with tap } := by
        rintro tap rfl
        simp only [TapWorld.step, TapWorld.receiveOn]
        split
        · exact hw.of_tap hw.flag rfl rfl rfl rfl rfl
        · exact hw
      exact hsame _ rfl
    | foreign | hangUp => exact hw.of_tap hw.flag rfl rfl rfl rfl rfl

theorem drained_tap (w : WaitWorld) : w.drained.tap = w.tap.drainFeed := by
  unfold drained TapWorld.drainFeed
  rcases w.tap.feed.recv with ⟨_ | chunk, feed⟩ <;> rfl

theorem offered_tap (w : WaitWorld) (tap : TapWorld) (chunk : Chunk) :
    (w.offered tap chunk).tap = tap := by
  unfold offered
  split_ifs <;> rfl

theorem step_tap (w : WaitWorld) (a : TapAct) : (w.step (.hub a)).tap = w.tap.step a := by
  cases a with
  | mirror chunk => exact w.offered_tap _ chunk
  | drain => exact w.drained_tap
  | armWait id matcher lookback context replay =>
    simp only [step]
    cases (w.tap.hub.armWait id matcher lookback context replay).1 <;> rfl
  | disarm id =>
    simp only [step]
    cases (w.tap.hub.disarm id).1 <;> rfl
  | _ => rfl

theorem step_linked (hw : w.tap.Linked) (a : WaitAct) (ha : w.Allowed a) :
    (w.step a).tap.Linked := by
  cases a with
  | carry chunk =>
    rcases step_offer (w := w) (.inl rfl) with ⟨feed, -, heq⟩ | heq
    · rw [heq]
      exact hw.of_hub rfl (.refl _) hw.dropped_lt hw.seen_lt
    · rw [heq]
      exact hw.of_hub rfl (.refl _) (wrappingAdd_lt _ _) hw.seen_lt
  | hub a =>
    rw [step_tap]
    refine TapWorld.step_linked hw a ?_
    cases a with
    | ingest chunk => exact ha.elim
    | armWait id matcher lookback context replay => trivial
    | _ => exact ha

theorem Kept.count_outcomes (hw : w.Kept) (id : ℕ) :
    (w.tap.hub.waits.map (·.id)).count id + (w.ended.map (·.1)).count id + w.disarmed.count id =
      if id ∈ w.parked then 1 else 0 := by
  have hcount := hw.outcomes.count_eq id
  rw [count_append, count_append, ← Nat.add_assoc] at hcount
  rw [← hcount]
  split_ifs with hid
  · exact count_eq_one_of_mem hw.parked hid
  · exact count_eq_zero_of_not_mem hid

theorem hub_lifecycle (endpoint : String) (ringCap epoch feedCap : ℕ) (conns : Conns)
    (w : WaitWorld) (h : machine.Reachable (start endpoint ringCap epoch feedCap conns) w) :
    (w.tap.hub.active = true ↔ w.tap.hub.orphaned = false ∧
      (w.tap.hub.ring ≠ none ∨ w.tap.hub.taps ≠ [] ∨ w.tap.hub.waits ≠ [])) ∧
    w.tap.hub.waits.length ≤ maxArmedWaits ∧
    (∀ id, (w.tap.hub.waits.map (·.id)).count id + (w.ended.map (·.1)).count id +
      w.disarmed.count id = if id ∈ w.parked then 1 else 0) ∧
    (∀ reason : TapCloseReason, ∃ q l,
      w.tap.conns.Adds (w.tap.hub.detachAll w.tap.conns reason).2.2.1 q l ∧
      ∀ t ∈ w.tap.hub.taps, ∀ lane, t.terminal = some lane → (w.tap.conns t.out).out.isOpen = true →
        ToldOnce (.closed t.id w.tap.hub.endpoint reason.asStr) t.out lane q l) ∧
    w.produced = w.tap.stream.length + (w.tap.feed.queue.map (·.length)).sum + w.lost ∧
      w.tap.hub.ingested = w.tap.stream.length % u64Size ∧
      w.tap.hub.feedDropped = w.lost % u64Size := by
  obtain ⟨hk, hl⟩ : w.Kept ∧ w.tap.Linked :=
    h.invariant (I := fun w => w.Kept ∧ w.tap.Linked)
      ⟨start_kept _ _ _ _ _, TapWorld.start_linked _ _ _ _ _⟩
      fun w a ⟨hk, hl⟩ ha => ⟨step_kept hk a ha, step_linked hl a ha⟩
  refine ⟨?_, hk.armed, hk.count_outcomes, fun reason => ?_, hk.conserved, hk.ingested, hk.dropped⟩
  · rw [hk.flag]
    simp [Option.isSome_iff_ne_none, or_assoc]
  · obtain ⟨q, l, hadds, -, htold⟩ :=
      TapHub.closeTaps_told w.tap.hub.endpoint reason.asStr hl.taps_nodup w.tap.conns
    exact ⟨q, l, hadds, htold⟩

def busyRun : List WaitAct :=
  [.hub (.register 1 0 false), .hub (.attachTerminal 1 0),
    .hub (.armWait 2 (.literals [⟨"prompt", .literal, [0x24]⟩]) 64 16 false),
    .hub (.armWait 3 (.literals [⟨"login", .literal, [0x3a]⟩]) 64 16 false), .hub (.mirror [0x24]), .hub .drain,
    .hub (.mirror [0x23])]

def busyWorld : WaitWorld := machine.run (start "usb0" 0 1 256 TapWorld.oneSlot) busyRun

theorem busyWorld_reachable : machine.Reachable (start "usb0" 0 1 256 TapWorld.oneSlot) busyWorld :=
  ⟨busyRun, ⟨⟨rfl, fun _ _ hm => by cases hm⟩, trivial, not_mem_nil,
    (by decide : 3 ∉ [2]), trivial, trivial, trivial, trivial⟩, rfl⟩

theorem hub_lifecycle_busyWorld :
    busyWorld.tap.hub.active = true ∧ busyWorld.parked = [2, 3] ∧
      (busyWorld.ended.map (·.1)).count 2 = 1 ∧ (busyWorld.ended.map (·.1)).count 3 = 0 ∧
      (∃ q l, busyWorld.tap.conns.Adds
        (busyWorld.tap.hub.detachAll busyWorld.tap.conns .teardown).2.2.1 q l ∧
        ToldOnce (.closed 1 "usb0" "teardown") 0 0 q l) ∧
      busyWorld.produced = 2 := by
  obtain ⟨hflag, -, hcount, htold, hbytes, -, -⟩ :=
    hub_lifecycle "usb0" 0 1 256 TapWorld.oneSlot busyWorld busyWorld_reachable
  obtain ⟨q, l, hadds, htold⟩ := htold .teardown
  have hparked : busyWorld.parked = [2, 3] := by decide +kernel
  have harmed : busyWorld.tap.hub.waits.map (·.id) = [3] := by decide +kernel
  have hdisarmed : busyWorld.disarmed = [] := by decide +kernel
  refine ⟨hflag.mpr ⟨by decide +kernel, .inr (.inl ?_)⟩, hparked, ?_, ?_, ⟨q, l, hadds, ?_⟩, ?_⟩
  · decide +kernel
  · have := hcount 2
    rw [harmed, hdisarmed, hparked] at this
    simpa using this
  · have := hcount 3
    rw [harmed, hdisarmed, hparked] at this
    simpa using this
  · exact htold ⟨1, 0, some 0, 0⟩ (by decide +kernel) 0 rfl (by decide +kernel)
  · rw [hbytes]
    decide +kernel

end WaitWorld
end SerialNexus
