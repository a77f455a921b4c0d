import SerialNexus.TapWaits

/-! # Matches and lost bytes

A match must not span bytes the feed dropped.  The hub empties the window of a wait when a chunk is
ingested with new loss to announce.  But the loss is announced with the next chunk that is drained:
if other chunks were queued ahead of the lost bytes, the announcement comes too early, and the chunk
that follows the hole comes without one. -/

namespace SerialNexus

open List

def Unbroken (places : List ℕ) : Prop := places.IsChain fun p q => q = p + 1

instance (places : List ℕ) : Decidable (Unbroken places) :=
  inferInstanceAs (Decidable (places.IsChain fun p q => q = p + 1))

def PatternMatch.UnbrokenIn (heard : List ℕ) (hit : PatternMatch) : Prop :=
  hit.offset ≤ hit.endOffset ∧ hit.endOffset ≤ heard.length ∧
    Unbroken ((heard.take hit.endOffset).drop hit.offset)

theorem PatternMatch.UnbrokenIn.append {heard : List ℕ} {hit : PatternMatch}
    (h : hit.UnbrokenIn heard) (more : List ℕ) : hit.UnbrokenIn (heard ++ more) := by
  refine ⟨h.1, ?_, ?_⟩
  · rw [length_append]
    exact Nat.le_add_right_of_le h.2.1
  · rw [take_append_of_le_length h.2.1]
    exact h.2.2

theorem Unbroken.append_range {places : List ℕ} (h : Unbroken places) (origin n : ℕ)
    (hjoin : n ≠ 0 → ∀ p ∈ places.getLast?, origin = p + 1) :
    Unbroken (places ++ List.range' origin n) := by
  refine isChain_append.mpr ⟨h, isChain_range' origin n 1, ?_⟩
  intro p hp q hq
  cases n with
  | zero => cases hq
  | succ n =>
    cases hq
    exact hjoin (Nat.succ_ne_zero n) p hp

namespace ScanWindow

structure Covers (heard : List ℕ) (s : ScanWindow) : Prop where
  reach : s.base + s.buf.length = heard.length
  whole : Unbroken (heard.drop s.base)

variable {heard : List ℕ} {s : ScanWindow}

theorem Covers.trim (h : s.Covers heard) (hb : heard.length < u64Size) : s.trim.Covers heard := by
  unfold ScanWindow.trim
  split_ifs with hlong
  · have hreach := h.reach
    have hbase : wrappingAdd s.base (s.buf.length - s.lookback) =
        s.base + (s.buf.length - s.lookback) := wrappingAdd_of_lt (by omega)
    refine ⟨?_, ?_⟩
    · dsimp only
      rw [hbase, length_drop]
      omega
    · dsimp only
      rw [hbase, ← drop_drop]
      exact h.whole.drop _
  · exact h

theorem Covers.scan (h : s.Covers heard) (hb : heard.length < u64Size)
    (hm : s.matcher.InBounds) {hit : PatternMatch} (hhit : s.scan = some hit) :
    hit.UnbrokenIn heard := by
  obtain ⟨raw, hraw, rfl⟩ := Option.map_eq_some_iff.mp hhit
  obtain ⟨hle, hend⟩ := hm _ _ hraw
  have hreach := h.reach
  have hoffset : wrappingAdd s.base raw.start = s.base + raw.start := wrappingAdd_of_lt (by omega)
  have hendOffset : wrappingAdd s.base raw.end_ = s.base + raw.end_ := wrappingAdd_of_lt (by omega)
  unfold PatternMatch.UnbrokenIn
  dsimp only
  rw [hoffset, hendOffset]
  refine ⟨by omega, by omega, ?_⟩
  rw [drop_take, ← drop_drop]
  exact (h.whole.drop _).take _

theorem Covers.scanTrim (h : s.Covers heard) (hb : heard.length < u64Size)
    (hm : s.matcher.InBounds) :
    (∀ hit, s.scanTrim.1 = some hit → hit.UnbrokenIn heard) ∧ s.scanTrim.2.Covers heard ∧
      s.scanTrim.2.matcher = s.matcher := by
  unfold ScanWindow.scanTrim
  cases hscan : s.scan with
  | some hit =>
    refine ⟨?_, h, rfl⟩
    rintro hit' ⟨⟩
    exact h.scan hb hm hscan
  | none =>
    refine ⟨nofun, h.trim hb, ?_⟩
    unfold ScanWindow.trim
    dsimp only
    split_ifs <;> rfl

theorem Covers.feed (h : s.Covers heard) (hm : s.matcher.InBounds) (chunk : Chunk) (gap origin : ℕ)
    (hb : heard.length + chunk.length < u64Size)
    (hjoin : s.buf ≠ [] → gap = 0 → chunk ≠ [] → ∀ p ∈ heard.getLast?, origin = p + 1) :
    (∀ hit, (s.feed chunk gap).1 = some hit →
      hit.UnbrokenIn (heard ++ List.range' origin chunk.length)) ∧
      (s.feed chunk gap).2.Covers (heard ++ List.range' origin chunk.length) ∧
      (s.feed chunk gap).2.matcher = s.matcher := by
  have hlength : (heard ++ List.range' origin chunk.length).length < u64Size := by
    rwa [length_append, length_range']
  have hreach := h.reach
  unfold ScanWindow.feed ScanWindow.fed
  by_cases hgap : gap > 0
  · have hbase : wrappingAdd s.base s.buf.length = heard.length :=
      (wrappingAdd_of_lt (by omega)).trans hreach
    simp only [if_pos hgap, hbase, nil_append]
    refine Covers.scanTrim ⟨?_, ?_⟩ hlength hm
    · simp
    · rw [drop_left]
      exact isChain_range' origin chunk.length 1
  · simp only [if_neg hgap]
    refine Covers.scanTrim ⟨?_, ?_⟩ hlength hm
    · simp only [length_append, length_range']
      omega
    · dsimp only
      rw [drop_append_of_le_length (by omega)]
      refine Unbroken.append_range h.whole origin chunk.length fun hne p hp => ?_
      rw [getLast?_drop] at hp
      by_cases hempty : heard.length ≤ s.base
      · rw [if_pos hempty] at hp
        cases hp
      · rw [if_neg hempty] at hp
        refine hjoin ?_ (by omega) (fun hnil => hne (by rw [hnil]; rfl)) p hp
        intro hbuf
        rw [hbuf, length_nil] at hreach
        omega

theorem new_covers (matcher : Matcher) (lookback context : ℕ) (heard : List ℕ) :
    (ScanWindow.new matcher lookback context heard.length).Covers heard :=
  ⟨rfl, by rw [ScanWindow.new, drop_length]; exact isChain_nil⟩

theorem seed_covers (s : ScanWindow) (hm : s.matcher.InBounds) (snap : Chunk) (base excluded : ℕ)
    (hb : heard.length < u64Size) (hreach : base + snap.length = heard.length)
    (hwhole : Unbroken (heard.drop base)) :
    (∀ hit, (s.seed snap base excluded).1 = some hit → hit.UnbrokenIn heard) ∧
      (s.seed snap base excluded).2.Covers heard ∧
      (s.seed snap base excluded).2.matcher = s.matcher := by
  unfold ScanWindow.seed
  by_cases hex : excluded > 0
  · simp only [if_pos hex]
    exact Covers.scanTrim ⟨hreach, hwhole⟩ hb hm
  · simp only [if_neg hex]
    exact Covers.scanTrim ⟨hreach, hwhole⟩ hb hm

end ScanWindow

namespace TapHub

def ringFrom (h : TapHub) : ℕ := (h.ringGap.map (·.1)).getD 0

theorem replayWindow_spec (h : TapHub) (ring : ReplayRing)
    (hsnap : ring.snapshot.length ≤ h.ingested) (hfrom : h.ringFrom ≤ h.ingested) :
    (h.replayWindow ring).2.1 + (h.replayWindow ring).1.length = h.ingested ∧
      h.ringFrom ≤ (h.replayWindow ring).2.1 := by
  unfold replayWindow ringFrom at *
  cases hgap : h.ringGap with
  | none =>
    dsimp only [Option.map_none, Option.getD_none]
    omega
  | some gap =>
    obtain ⟨place, bytes⟩ := gap
    rw [hgap] at hfrom
    dsimp only [Option.map_some, Option.getD_some] at hfrom ⊢
    by_cases hlate : place > h.ingested - ring.snapshot.length
    · rw [if_pos hlate]
      dsimp only
      rw [length_drop]
      omega
    · rw [if_neg hlate]
      dsimp only
      omega

theorem ingest_ringFrom (h : TapHub) (conns : Conns) (chunk : Chunk) :
    (h.ingest conns chunk).1.ringFrom =
      if h.ring.isSome ∧ h.gapBefore > 0 then h.ingested else h.ringFrom := by
  unfold ringFrom ingest refreshActive
  dsimp only
  split_ifs <;> rfl

theorem feedWaits_scans (chunk : Chunk) (gap epoch : ℕ) (waits : List ArmedWait) :
    (∀ wait' ∈ (feedWaits chunk gap epoch waits).1, ∃ wait ∈ waits,
      wait'.scan = (wait.scan.feed chunk (gap - wait.pendingGapCredit)).2) ∧
    ∀ hit ∈ (feedWaits chunk gap epoch waits).2.filterMap (·.2.hit?), ∃ wait ∈ waits,
      (wait.scan.feed chunk (gap - wait.pendingGapCredit)).1 = some hit := by
  induction waits with
  | nil => exact ⟨nofun, nofun⟩
  | cons wait waits ih =>
    obtain ⟨hkept, hended⟩ := ih
    have hkept' : ∀ wait' ∈ (feedWaits chunk gap epoch waits).1, ∃ wait₀ ∈ wait :: waits,
        wait'.scan = (wait₀.scan.feed chunk (gap - wait₀.pendingGapCredit)).2 := by
      intro wait' hmem
      obtain ⟨wait₀, h₀, heq⟩ := hkept wait' hmem
      exact ⟨wait₀, mem_cons_of_mem _ h₀, heq⟩
    have hended' : ∀ hit ∈ (feedWaits chunk gap epoch waits).2.filterMap (·.2.hit?),
        ∃ wait₀ ∈ wait :: waits,
          (wait₀.scan.feed chunk (gap - wait₀.pendingGapCredit)).1 = some hit := by
      intro hit hmem
      obtain ⟨wait₀, h₀, heq⟩ := hended hit hmem
      exact ⟨wait₀, mem_cons_of_mem _ h₀, heq⟩
    rw [feedWaits]
    dsimp only
    split
    · refine ⟨?_, hended'⟩
      rintro wait' (_ | ⟨_, hmem⟩)
      · exact ⟨wait, mem_cons_self, rfl⟩
      · exact hkept' wait' hmem
    · next hit hhit =>
      refine ⟨hkept', ?_⟩
      split_ifs
      · rintro hit' hmem
        rw [filterMap_cons] at hmem
        rcases mem_cons.mp hmem with rfl | hmem
        · exact ⟨wait, mem_cons_self, hhit⟩
        · exact hended' hit' hmem
      · exact hended'

section arming
variable {h : TapHub} {heard : List ℕ} {matcher : Matcher}

theorem openingScan_covers (hin : h.ingested = heard.length) (hb : heard.length < u64Size)
    (hm : matcher.InBounds) (lookback context : ℕ) (replay : Bool)
    (hsnap : ∀ ring, h.ring = some ring → ring.snapshot.length ≤ heard.length)
    (hring : h.ring.isSome → Unbroken (heard.drop h.ringFrom)) (hfrom : h.ringFrom ≤ heard.length) :
    (∀ hit, (h.openingScan matcher lookback context replay).1 = some hit → hit.UnbrokenIn heard) ∧
      (h.openingScan matcher lookback context replay).2.1.Covers heard ∧
      (h.openingScan matcher lookback context replay).2.1.matcher = matcher := by
  have hnew : (ScanWindow.new matcher lookback context h.ingested).Covers heard := by
    rw [hin]
    exact ScanWindow.new_covers matcher lookback context heard
  unfold openingScan
  cases replay with
  | false => exact ⟨nofun, hnew, rfl⟩
  | true =>
    cases hr : h.ring with
    | none => exact ⟨nofun, hnew, rfl⟩
    | some ring =>
      rw [← hin] at hfrom
      obtain ⟨hreach, hafter⟩ := h.replayWindow_spec ring (by rw [hin]; exact hsnap ring hr) hfrom
      refine ScanWindow.seed_covers _ hm _ _ _ hb (hreach.trans hin) ?_
      have hwhole := (hring (by rw [hr]; rfl)).drop ((h.replayWindow ring).2.1 - h.ringFrom)
      rwa [drop_drop, Nat.add_sub_cancel' hafter] at hwhole

theorem armWait_scans (hin : h.ingested = heard.length) (hb : heard.length < u64Size)
    (hm : matcher.InBounds) (id lookback context : ℕ) (replay : Bool)
    (hsnap : ∀ ring, h.ring = some ring → ring.snapshot.length ≤ heard.length)
    (hring : h.ring.isSome → Unbroken (heard.drop h.ringFrom)) (hfrom : h.ringFrom ≤ heard.length) :
    (∀ hit accounting, (h.armWait id matcher lookback context replay).1 =
      .alreadyMatched hit accounting → hit.UnbrokenIn heard) ∧
    (h.armWait id matcher lookback context replay).2.ringGap = h.ringGap ∧
    ∀ wait ∈ (h.armWait id matcher lookback context replay).2.waits,
      wait ∈ h.waits ∨ (wait.scan.matcher.InBounds ∧ wait.scan.Covers heard) := by
  obtain ⟨hhit, hcovers, hmatcher⟩ :=
    openingScan_covers hin hb hm lookback context replay hsnap hring hfrom
  rw [armWait]
  by_cases hmax : h.waits.length ≥ maxArmedWaits
  · rw [if_pos hmax]
    exact ⟨nofun, rfl, fun _ => .inl⟩
  rw [if_neg hmax]
  dsimp only
  split
  · next hit heq =>
    refine ⟨?_, rfl, fun _ => .inl⟩
    rintro hit' accounting ⟨⟩
    exact hhit hit heq
  · refine ⟨nofun, rfl, fun wait hmem => ?_⟩
    rcases mem_append.mp hmem with hmem | hmem
    · exact .inl hmem
    · obtain rfl := mem_singleton.mp hmem
      refine .inr ⟨?_, hcovers⟩
      rw [hmatcher]
      exact hm

end arming
end TapHub

namespace WaitWorld

variable {w : WaitWorld}

def queuedPlaces (w : WaitWorld) : List ℕ :=
  (List.zipWith (fun origin (chunk : Chunk) => List.range' origin chunk.length) w.origins
    w.tap.feed.queue).flatten

structure Placed (w : WaitWorld) : Prop where
  paired : w.origins.length = w.tap.feed.queue.length
  heard : w.heard.length = w.tap.stream.length
  ordered : (w.heard ++ w.queuedPlaces).Pairwise (· < ·)
  below : ∀ p ∈ w.heard ++ w.queuedPlaces, p < w.produced

variable {tap : TapWorld} {chunk : Chunk}

theorem Placed.charged (hw : w.Placed) (n : ℕ) (hfeed : tap.feed = w.tap.feed)
    (hstream : tap.stream = w.tap.stream) : (w.charged tap n).Placed := by
  have hplaces : (w.charged tap n).queuedPlaces = w.queuedPlaces := by
    simp only [queuedPlaces, WaitWorld.charged, hfeed]
  refine ⟨?_, ?_, ?_, ?_⟩
  · simp only [WaitWorld.charged, hfeed]
    exact hw.paired
  · simp only [WaitWorld.charged, hstream]
    exact hw.heard
  · rw [hplaces]
    exact hw.ordered
  · rw [hplaces]
    exact fun p hp => Nat.lt_add_right n (hw.below p hp)

theorem Placed.carried (hw : w.Placed) {feed : Channel Chunk}
    (hfeed : feed.queue = w.tap.feed.queue ++ [chunk]) :
    (w.carried { w.tap with feed } chunk).Placed := by
  have hplaces : (w.carried { w.tap with feed } chunk).queuedPlaces =
      w.queuedPlaces ++ List.range' w.produced chunk.length := by
    simp only [queuedPlaces, WaitWorld.carried, hfeed]
    rw [zipWith_append hw.paired, flatten_append]
    simp
  refine ⟨?_, hw.heard, ?_, ?_⟩
  · simp only [WaitWorld.carried, hfeed, length_append, hw.paired, length_singleton]
  · rw [hplaces]
    change (w.heard ++ (w.queuedPlaces ++ List.range' w.produced chunk.length)).Pairwise (· < ·)
    rw [← append_assoc]
    refine List.pairwise_append.mpr ⟨hw.ordered, List.pairwise_lt_range', ?_⟩
    intro p hp q hq
    exact (hw.below p hp).trans_le (mem_range'_1.mp hq).1
  · rw [hplaces]
    intro p hp
    change p < w.produced + chunk.length
    change p ∈ w.heard ++ (w.queuedPlaces ++ List.range' w.produced chunk.length) at hp
    rw [← append_assoc] at hp
    rcases mem_append.mp hp with hp | hp
    · exact Nat.lt_add_right _ (hw.below p hp)
    · exact (mem_range'_1.mp hp).2

theorem Placed.front (hw : w.Placed) (hrecv : w.tap.feed.recv.1 = some chunk) :
    ∃ origin origins, w.origins = origin :: origins ∧
      w.tap.feed.queue = chunk :: w.tap.feed.recv.2.queue := by
  have hqueue := w.tap.feed.recv_queue
  rw [hrecv, Option.toList_some, singleton_append] at hqueue
  cases horigins : w.origins with
  | nil =>
    have := hw.paired
    rw [horigins, ← hqueue] at this
    cases this
  | cons origin origins => exact ⟨origin, origins, rfl, hqueue.symm⟩

theorem Placed.drained (hw : w.Placed) : w.drained.Placed := by
  unfold WaitWorld.drained
  cases hrecv : w.tap.feed.recv.1 with
  | none => exact hw
  | some chunk =>
    obtain ⟨origin, origins, horigins, hqueue⟩ := hw.front hrecv
    have hpaired := hw.paired
    have hheard := hw.heard
    have hordered := hw.ordered
    have hbelow := hw.below
    -- the places of the front chunk move from the feed to what was heard
    simp only [queuedPlaces, horigins, hqueue, zipWith_cons_cons, flatten_cons,
      ← append_assoc] at hordered hbelow
    simp only [drainFeed_eq hrecv, horigins, tail_cons, headD_cons]
    refine ⟨?_, ?_, hordered, hbelow⟩
    · rw [horigins, hqueue, length_cons, length_cons] at hpaired
      exact Nat.succ.inj hpaired
    · change (w.heard ++ List.range' origin chunk.length).length = (w.tap.stream ++ chunk).length
      rw [length_append, length_append, hheard, length_range']

theorem Placed.of_tap (hw : w.Placed) (hfeed : tap.feed = w.tap.feed)
    (hstream : tap.stream = w.tap.stream) : Placed { w with tap } := by
  have hplaces : queuedPlaces { w with tap } = w.queuedPlaces := by
    simp only [queuedPlaces, hfeed]
  refine ⟨?_, ?_, ?_, ?_⟩
  · simp only [hfeed]
    exact hw.paired
  · simp only [hstream]
    exact hw.heard
  · rw [hplaces]
    exact hw.ordered
  · rw [hplaces]
    exact hw.below

theorem step_placed (hw : w.Placed) (a : WaitAct) (ha : w.Allowed a) : (w.step a).Placed := by
  have hoffer {a : WaitAct} {chunk : Chunk} (ha : a = .carry chunk ∨ a = .hub (.mirror chunk)) :
      (w.step a).Placed := by
    rcases step_offer (w := w) ha with ⟨feed, hq, heq⟩ | heq
    · rw [heq]
      exact hw.carried hq
    · rw [heq]
      exact hw.charged _ rfl rfl
  cases a with
  | carry chunk => exact hoffer (.inl rfl)
  | hub a =>
    cases a with
    | mirror chunk => exact hoffer (.inr rfl)
    | skipped n => exact hw.charged n rfl rfl
    | drain => exact hw.drained
    | ingest chunk => exact ha.elim
    | armWait id matcher lookback context replay =>
      have h : Placed { w with
          tap := w.tap.step (.armWait id matcher lookback context replay) } := hw.of_tap rfl rfl
      simp only [step]
      cases (w.tap.hub.armWait id matcher lookback context replay).1 <;>
        exact ⟨h.paired, h.heard, h.ordered, h.below⟩
    | disarm id =>
      have h : Placed { w with tap := w.tap.step (.disarm id) } := hw.of_tap rfl rfl
      simp only [step]
      cases (w.tap.hub.disarm id).1 <;> exact ⟨h.paired, h.heard, h.ordered, h.below⟩
    | detachAll reason =>
      have h : Placed { w with tap := w.tap.step (.detachAll reason) } := hw.of_tap rfl rfl
      exact ⟨h.paired, h.heard, h.ordered, h.below⟩
    | receive c =>
      refine hw.of_tap ?_ ?_
      all_goals
        simp only [TapWorld.step, TapWorld.receiveOn]
        split <;> rfl
    | register | attachTerminal | close | foreign | hangUp => exact hw.of_tap rfl rfl

def afterLoss (w : WaitWorld) : Bool :=
  match w.tap.feed.recv.1, w.heard.getLast? with
  | some chunk, some p => decide (chunk ≠ [] ∧ w.origins.headD 0 ≠ p + 1)
  | _, _ => false

def Announced (w : WaitWorld) : WaitAct → Prop
  | .hub .drain => w.afterLoss = true →
      (w.tap.hub.ring.isSome → 0 < w.tap.hub.gapBefore) ∧
        ∀ wait ∈ w.tap.hub.waits, wait.scan.buf ≠ [] → wait.pendingGapCredit < w.tap.hub.gapBefore
  | _ => True

def TrustedEngine : WaitAct → Prop
  | .hub (.armWait _ matcher _ _ _) => matcher.InBounds
  | _ => True

structure Seamless (w : WaitWorld) : Prop where
  windows : ∀ wait ∈ w.tap.hub.waits, wait.scan.matcher.InBounds ∧ wait.scan.Covers w.heard
  ring : w.tap.hub.ring.isSome → Unbroken (w.heard.drop w.tap.hub.ringFrom)
  ringFrom : w.tap.hub.ringFrom ≤ w.heard.length
  settled : ∀ hit ∈ w.settled, hit.UnbrokenIn w.heard

theorem start_seamless (endpoint : String) (ringCap epoch feedCap : ℕ) (conns : Conns) :
    (start endpoint ringCap epoch feedCap conns).Seamless where
  windows := nofun
  ring _ := isChain_nil
  ringFrom := le_rfl
  settled := nofun

theorem Seamless.of_hub (hw : w.Seamless) {w' : WaitWorld} (hheard : w'.heard = w.heard)
    (hsettled : w'.settled = w.settled) (hwaits : w'.tap.hub.waits ⊆ w.tap.hub.waits)
    (hring : w'.tap.hub.ring.isSome → w.tap.hub.ring.isSome)
    (hgap : w'.tap.hub.ringGap = w.tap.hub.ringGap) : w'.Seamless := by
  have hfrom : w'.tap.hub.ringFrom = w.tap.hub.ringFrom := by
    rw [TapHub.ringFrom, hgap]
    rfl
  refine ⟨fun wait hmem => ?_, fun h => ?_, ?_, fun hit hmem => ?_⟩
  · rw [hheard]
    exact hw.windows wait (hwaits hmem)
  · rw [hheard, hfrom]
    exact hw.ring (hring h)
  · rw [hheard, hfrom]
    exact hw.ringFrom
  · rw [hheard]
    exact hw.settled hit (hsettled ▸ hmem)

theorem join_of_not_afterLoss (hrecv : w.tap.feed.recv.1 = some chunk) (h : w.afterLoss ≠ true)
    (hne : chunk ≠ []) : ∀ p ∈ w.heard.getLast?, w.origins.headD 0 = p + 1 := by
  intro p hp
  by_contra hcon
  refine h ?_
  rw [afterLoss, hrecv, hp]
  exact decide_eq_true ⟨hne, hcon⟩

theorem Seamless.drained (hw : w.Seamless) (hx : w.tap.Exact) (hp : w.Placed)
    (ha : w.Announced (.hub .drain)) (hb : w.drained.tap.stream.length < u64Size) :
    w.drained.Seamless := by
  rw [drained_tap] at hb
  unfold WaitWorld.drained
  cases hrecv : w.tap.feed.recv.1 with
  | none => exact hw
  | some chunk =>
    rw [drainFeed_eq hrecv] at hb
    change (w.tap.stream ++ chunk).length < u64Size at hb
    rw [length_append, ← hp.heard] at hb
    have hin : w.tap.hub.ingested = w.heard.length := hx.ingested.trans hp.heard.symm
    obtain ⟨hkept, hended⟩ :=
      TapHub.feedWaits_scans chunk w.tap.hub.gapBefore w.tap.hub.epoch w.tap.hub.waits
    -- a window that is not emptied for a hole continues with this chunk
    have hfeed : ∀ wait ∈ w.tap.hub.waits, _ := fun wait hmem =>
      (hw.windows wait hmem).2.feed (hw.windows wait hmem).1 chunk
        (w.tap.hub.gapBefore - wait.pendingGapCredit) (w.origins.headD 0) hb fun hbuf hgap hne =>
          join_of_not_afterLoss hrecv (fun hloss => by
            have := (ha hloss).2 wait hmem hbuf
            omega) hne
    simp only [drainFeed_eq hrecv]
    refine ⟨fun wait' hmem => ?_, fun hring => ?_, ?_, fun hit hmem => ?_⟩
    · obtain ⟨wait, hwait, heq⟩ := hkept wait' hmem
      obtain ⟨-, hcovers, hmatcher⟩ := hfeed wait hwait
      rw [heq, hmatcher]
      exact ⟨(hw.windows wait hwait).1, hcovers⟩
    · have hring : w.tap.hub.ring.isSome := by
        rwa [← Option.isSome_map (f := (·.push chunk))]
      change Unbroken (List.drop (w.tap.hub.ingest w.tap.conns chunk).1.ringFrom _)
      rw [TapHub.ingest_ringFrom]
      by_cases hgap : w.tap.hub.gapBefore > 0
      · rw [if_pos ⟨hring, hgap⟩, hin, drop_left]
        exact isChain_range' _ _ 1
      · rw [if_neg (by simp [hgap]), drop_append_of_le_length hw.ringFrom]
        refine (hw.ring hring).append_range _ _ fun hne p hp => ?_
        rw [getLast?_drop] at hp
        split_ifs at hp
        · cases hp
        · exact join_of_not_afterLoss hrecv (fun hloss => hgap ((ha hloss).1 hring))
            (fun hnil => hne (by rw [hnil]; rfl)) p hp
    · change (w.tap.hub.ingest w.tap.conns chunk).1.ringFrom ≤ _
      rw [TapHub.ingest_ringFrom, length_append]
      have := hw.ringFrom
      split_ifs <;> omega
    · rcases mem_append.mp hmem with hmem | hmem
      · exact (hw.settled hit hmem).append _
      · obtain ⟨wait, hwait, heq⟩ := hended hit hmem
        exact (hfeed wait hwait).1 hit heq

theorem Seamless.armed (hw : w.Seamless) (hx : w.tap.Exact) (hp : w.Placed)
    (hb : w.tap.stream.length < u64Size) {matcher : Matcher} (hm : matcher.InBounds)
    (id lookback context : ℕ) (replay : Bool) :
    (w.step (.hub (.armWait id matcher lookback context replay))).Seamless := by
  have hring := (TapWorld.armWait_same w.tap.hub id matcher lookback context replay).2.1
  have hsnap : ∀ ring, w.tap.hub.ring = some ring → ring.snapshot.length ≤ w.heard.length := by
    intro ring h
    rw [hx.ring ring h, hp.heard, CircularBuffer.newest, length_drop]
    exact Nat.sub_le _ _
  obtain ⟨hhit, hgap, hwaits⟩ := TapHub.armWait_scans (hx.ingested.trans hp.heard.symm)
    (hp.heard ▸ hb) hm id lookback context replay hsnap hw.ring hw.ringFrom
  -- whatever the answer, the hub and the windows are as the arming leaves them
  have hbase : Seamless { w with
      tap := w.tap.step (.armWait id matcher lookback context replay) } := by
    refine ⟨fun wait hmem => ?_, fun h => ?_, ?_, hw.settled⟩
    · exact (hwaits wait hmem).elim (hw.windows wait) fun h => h
    · rw [TapHub.ringFrom, TapWorld.step, hgap]
      exact hw.ring (hring ▸ h)
    · rw [TapHub.ringFrom, TapWorld.step, hgap]
      exact hw.ringFrom
  simp only [step]
  cases hanswer : (w.tap.hub.armWait id matcher lookback context replay).1 with
  | parked => exact ⟨hbase.windows, hbase.ring, hbase.ringFrom, hbase.settled⟩
  | refused armed max => exact hbase
  | alreadyMatched hit accounting =>
    refine ⟨hbase.windows, hbase.ring, hbase.ringFrom, fun hit' hmem => ?_⟩
    rcases mem_append.mp hmem with hmem | hmem
    · exact hw.settled hit' hmem
    · exact mem_singleton.mp hmem ▸ hhit hit accounting hanswer

theorem step_seamless (hw : w.Seamless) (hx : w.tap.Exact) (hp : w.Placed) (a : WaitAct)
    (ha : w.Allowed a) (he : TrustedEngine a) (hn : w.Announced a)
    (hb : (w.step a).tap.stream.length < u64Size) : (w.step a).Seamless := by
  have hoffer {a : WaitAct} {chunk : Chunk} (ha : a = .carry chunk ∨ a = .hub (.mirror chunk)) :
      (w.step a).Seamless := by
    rcases step_offer (w := w) ha with ⟨feed, hq, heq⟩ | heq
    · rw [heq]
      exact hw.of_hub rfl rfl (List.Subset.refl _) (fun h => h) rfl
    · rw [heq]
      exact hw.of_hub rfl rfl (List.Subset.refl _) (fun h => h) rfl
  cases a with
  | carry chunk => exact hoffer (.inl rfl)
  | hub a =>
    cases a with
    | mirror chunk => exact hoffer (.inr rfl)
    | drain => exact hw.drained hx hp hn hb
    | ingest chunk => exact ha.elim
    | armWait id matcher lookback context replay =>
      rw [step_tap] at hb
      exact hw.armed hx hp hb he id lookback context replay
    | disarm id =>
      have hsub := (w.tap.hub.disarm_outcomes id).1
      have hring := (TapWorld.disarm_same w.tap.hub id).2.1
      have hgap : (w.tap.hub.disarm id).2.ringGap = w.tap.hub.ringGap := by
        unfold TapHub.disarm
        split <;> rfl
      simp only [step]
      cases (w.tap.hub.disarm id).1 <;>
        exact hw.of_hub rfl rfl hsub (fun h => hring ▸ h) hgap
    | detachAll reason => exact hw.of_hub rfl rfl (nil_subset _) (fun h => by cases h) rfl
    | register id c replay =>
      have heq := w.tap.hub.register_eq w.tap.conns id c 0 replay
      refine hw.of_hub rfl rfl ?_ ?_ ?_
      all_goals simp only [step, TapWorld.step, TapWorld.registerTap, TapWorld.commit, heq]
      · exact List.Subset.refl _
      · exact fun h => h
      · rfl
    | receive c =>
      have hhub : (w.tap.step (.receive c)).hub = w.tap.hub := by
        simp only [TapWorld.step, TapWorld.receiveOn]
        split <;> rfl
      refine hw.of_hub rfl rfl ?_ ?_ ?_
      all_goals simp only [step, hhub]
      · exact List.Subset.refl _
      · exact fun h => h
    | skipped | attachTerminal | close | foreign |
        hangUp => exact hw.of_hub rfl rfl (List.Subset.refl _) (fun h => h) rfl

theorem step_exact (hx : w.tap.Exact) (a : WaitAct) (ha : w.Allowed a)
    (hb : (w.step a).tap.stream.length < u64Size) : (w.step a).tap.Exact := by
  cases a with
  | carry chunk =>
    rcases step_offer (w := w) (.inl rfl) with ⟨feed, -, heq⟩ | heq
    · rw [heq]
      exact hx.of_feed feed
    · rw [heq]
      exact hx.of_same rfl rfl rfl
  | hub a =>
    rw [step_tap] at hb ⊢
    refine TapWorld.step_exact hx a ?_ hb
    cases a with
    | ingest chunk => exact ha.elim
    | armWait id matcher lookback context replay => trivial
    | _ => exact ha

theorem stream_length_le_step (w : WaitWorld) (a : WaitAct) :
    w.tap.stream.length ≤ (w.step a).tap.stream.length := by
  cases a with
  | carry chunk => exact (w.offered_tap _ chunk).symm ▸ le_rfl
  | hub a =>
    rw [step_tap]
    exact w.tap.stream_length_le_step a

theorem match_unbroken (endpoint : String) (ringCap epoch feedCap : ℕ) (conns : Conns)
    (as : List WaitAct) (h : machine.Legal (start endpoint ringCap epoch feedCap conns) as)
    (hengine : ∀ a ∈ as, TrustedEngine a)
    (hc : machine.Each Announced (start endpoint ringCap epoch feedCap conns) as)
    (hb : (machine.run (start endpoint ringCap epoch feedCap conns) as).tap.stream.length <
      u64Size) :
    let w := machine.run (start endpoint ringCap epoch feedCap conns) as
    (∀ hit ∈ w.settled, hit.UnbrokenIn w.heard) ∧
      w.heard.length = w.tap.stream.length ∧ (w.heard ++ w.queuedPlaces).Pairwise (· < ·) ∧
      ∀ p ∈ w.heard ++ w.queuedPlaces, p < w.produced := by
  have hrun := Runs.Machine.invariant_of_each
    (I := fun w => w.Placed ∧ (w.tap.stream.length < u64Size → w.tap.Exact ∧ w.Seamless))
    (C := fun w a => TrustedEngine a ∧ w.Announced a) ?_ ?_ h (hc.and_forall hengine)
  · obtain ⟨hplaced, hseamless⟩ := hrun
    exact ⟨(hseamless hb).2.settled, hplaced.heard, hplaced.ordered, hplaced.below⟩
  · rintro w a ⟨hp, hw⟩ ha ⟨he, hn⟩
    refine ⟨step_placed hp a ha, fun hb => ?_⟩
    obtain ⟨hx, hs⟩ := hw ((w.stream_length_le_step a).trans_lt hb)
    exact ⟨step_exact hx a ha hb, step_seamless hs hx hp a ha he hn hb⟩
  · exact ⟨⟨rfl, rfl, List.Pairwise.nil, nofun⟩, fun _ =>
      ⟨TapWorld.start_exact _ _ _ _ _, start_seamless _ _ _ _ _⟩⟩

def promptHole : List WaitAct :=
  [.hub (.armWait 1 (.literals [⟨"AC", .literal, [0x41, 0x43]⟩]) 16 0 false), .hub (.mirror [0x41]), .hub .drain,
    .hub (.skipped 1), .hub (.mirror [0x43]), .hub .drain, .hub (.mirror [0x41, 0x43]), .hub .drain]

theorem match_unbroken_promptHole :
    let w := machine.run (start "usb0" 0 1 256 TapWorld.oneSlot) promptHole
    w.settled.map (fun hit => (hit.offset, hit.endOffset)) = [(2, 4)] ∧
      w.heard = [0, 2, 3, 4] ∧ ∀ hit ∈ w.settled, hit.UnbrokenIn w.heard := by
  have hlegal : machine.Legal (start "usb0" 0 1 256 TapWorld.oneSlot) promptHole :=
    ⟨not_mem_nil, trivial, trivial, trivial, trivial, trivial, trivial, trivial, trivial⟩
  have hengine : ∀ a ∈ promptHole, TrustedEngine a := by
    simp [promptHole, TrustedEngine, Matcher.literals_inBounds, needles]
  refine ⟨by decide +kernel, by decide +kernel, ?_⟩
  refine (match_unbroken "usb0" 0 1 256 TapWorld.oneSlot promptHole hlegal hengine ?_
    (by decide +kernel)).1
  refine ⟨trivial, trivial, ?_, trivial, trivial, ?_, trivial, ?_, trivial⟩
  · exact fun hloss => absurd hloss (by decide +kernel)
  · exact fun _ => ⟨nofun, by decide +kernel⟩
  · exact fun hloss => absurd hloss (by decide +kernel)

def lateHole : List WaitAct :=
  .hub (.armWait 1 (.literals [⟨"AC", .literal, [0x41, 0x43]⟩]) 16 0 false) ::
    (List.replicate 255 (.hub (.mirror [0x2e])) ++
      [.hub (.mirror [0x41]), .hub (.mirror [0x42]), .hub .drain, .hub (.mirror [0x43])] ++
      List.replicate 256 (.hub .drain))

def lateHoleWorld : WaitWorld := machine.run (start "usb0" 0 1 256 TapWorld.oneSlot) lateHole

theorem lateHole_match :
    machine.Reachable (start "usb0" 0 1 256 TapWorld.oneSlot) lateHoleWorld ∧
      (∀ a ∈ lateHole, TrustedEngine a) ∧
      lateHoleWorld.settled.map (fun hit => (hit.offset, hit.endOffset)) = [(255, 257)] ∧
      lateHoleWorld.heard.drop 255 = [255, 257] ∧
      ∃ hit ∈ lateHoleWorld.settled, ¬ hit.UnbrokenIn lateHoleWorld.heard := by
  obtain ⟨hsettled, hheard⟩ :
      lateHoleWorld.settled.map (fun hit => (hit.offset, hit.endOffset)) = [(255, 257)] ∧
        lateHoleWorld.heard.drop 255 = [255, 257] := by decide +kernel
  refine ⟨⟨lateHole, ⟨not_mem_nil, ?_⟩, rfl⟩, ?_, hsettled, hheard, ?_⟩
  · refine Runs.Machine.legal_of_forall (fun a ha w => ?_) _
    simp only [mem_append, mem_replicate, mem_cons, not_mem_nil, or_false] at ha
    rcases ha with (⟨-, rfl⟩ | rfl | rfl | rfl | rfl) | ⟨-, rfl⟩ <;> exact trivial
  · intro a ha
    simp only [lateHole, mem_append, mem_replicate, mem_cons, not_mem_nil, or_false] at ha
    rcases ha with rfl | (⟨-, rfl⟩ | rfl | rfl | rfl | rfl) | ⟨-, rfl⟩
    · exact Matcher.literals_inBounds (by decide)
    all_goals trivial
  · obtain ⟨hit, hmem, hplace⟩ := mem_map.mp (hsettled ▸ mem_singleton_self _)
    refine ⟨hit, hmem, fun hunbroken => ?_⟩
    obtain ⟨hoffset, hend⟩ := Prod.mk.inj hplace
    have hwhole := hunbroken.2.2
    rw [hoffset, hend, drop_take, hheard] at hwhole
    exact absurd hwhole (by decide)

end WaitWorld
end SerialNexus
