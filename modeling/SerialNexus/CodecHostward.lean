import Mathlib.Algebra.BigOperators.Group.Finset.Basic
import SerialNexus.CodecNode

/-! # The hostward accounts of a codec node

What comes in is delivered or discarded on a channel, dropped at a consumer's full queue, on an
unconfigured identity, or refused.  All counters are 64 bits wide: sums are modulo `2 ^ 64`. -/

namespace SerialNexus

open List Function

def bytesWhere (p : RoutedData → Bool) (log : List RoutedData) : ℕ :=
  ((log.filter p).map (·.bytes.length)).sum

theorem bytesWhere_concat (p : RoutedData → Bool) (log : List RoutedData) (r : RoutedData) :
    bytesWhere p (log ++ [r]) = bytesWhere p log + if p r then r.bytes.length else 0 := by
  unfold bytesWhere
  rw [filter_append, map_append, sum_append]
  cases hp : p r <;> simp [hp]

def chargedAt (k : ℕ) (log : List RoutedData) : ℕ :=
  (log.map fun r => r.fullAt.count k * r.bytes.length).sum

def RoutedData.is (channel : String) (fate : DataFate) (r : RoutedData) : Bool :=
  r.channel = channel ∧ r.fate = fate

structure DemuxCall where
  chunk : Chunk
  result : Except CodecError Unit
  events : List Event

def DemuxCall.loss (call : DemuxCall) : ℕ :=
  match call.result with
  | .error _ => call.chunk.length - salvaged call.events
  | .ok () => 0

/-- Was the call refused? -/
def DemuxCall.refused (call : DemuxCall) : Bool := !call.result.isOk

theorem DemuxCall.loss_of_accepted {call : DemuxCall} (h : call.refused = false) :
    call.loss = 0 := by
  obtain ⟨chunk, result, events⟩ := call
  cases result with
  | error e => cases h
  | ok => rfl

def dataOf (events : List Event) : List (String × Chunk) :=
  events.filterMap fun event =>
    match event.kind with
    | .data bytes => some (event.channel, bytes)
    | .opened | .closed | .error _ => none

section calls
variable {σ : Type*} (transform : σ → Chunk → Demuxed σ)

def transcript : σ → List Chunk → List DemuxCall
  | _, [] => []
  | codec, chunk :: chunks =>
    let call := transform codec chunk
    ⟨chunk, call.result, call.events⟩ :: transcript call.codec chunks

def codecAfter (codec : σ) (chunks : List Chunk) : σ :=
  chunks.foldl (fun codec chunk => (transform codec chunk).codec) codec

theorem transcript_concat (codec : σ) (chunks : List Chunk) (chunk : Chunk) :
    transcript transform codec (chunks ++ [chunk]) = transcript transform codec chunks ++
      [⟨chunk, (transform (codecAfter transform codec chunks) chunk).result,
        (transform (codecAfter transform codec chunks) chunk).events⟩] := by
  induction chunks generalizing codec with
  | nil => rfl
  | cons c chunks ih => exact congrArg _ (ih _)

theorem codecAfter_concat (codec : σ) (chunks : List Chunk) (chunk : Chunk) :
    codecAfter transform codec (chunks ++ [chunk]) =
      (transform (codecAfter transform codec chunks) chunk).codec :=
  foldl_concat _ _ _ _

end calls

theorem sum_missed (b : Buffers) (chunk : Chunk) (l : List FanOutSink) (k : ℕ) :
    ((l.filter (·.counters = k)).map fun sink => missed (b.chans sink.tx) chunk).sum =
      ((l.filter fun sink => fate (b.chans sink.tx) = some false).map (·.counters)).count k *
        chunk.length := by
  induction l with
  | nil => simp
  | cons sink l ih =>
    have hone : missed (b.chans sink.tx) chunk =
        if fate (b.chans sink.tx) = some false then chunk.length else 0 := rfl
    by_cases hk : sink.counters = k <;> by_cases hf : fate (b.chans sink.tx) = some false <;>
      simp [hk, hf, ih, hone, Nat.add_mul, Nat.add_comm]

theorem routeChannelData_sinks {l : List FanOutSink} (hnd : (l.map (·.tx)).Nodup) (chunk : Chunk)
    (b : Buffers) {stat : HostwardChannelStat} (hstat : stat.foldsFull = false) :
    (routeChannelData chunk (some l) b (some stat)).2 =
      some { stat with
        active := true
        delivered := wrappingAdd stat.delivered
          (if ∃ s ∈ l, fate (b.chans s.tx) = some true then chunk.length else 0)
        discarded := if ∃ s ∈ l, (b.chans s.tx).isOpen = true then stat.discarded
          else wrappingAdd stat.discarded chunk.length } ∧
    ∀ k total, b.full k = total % u64Size →
      (routeChannelData chunk (some l) b (some stat)).1.full k =
        (total + ((l.filter fun sink => fate (b.chans sink.tx) = some false).map
          (·.counters)).count k * chunk.length) % u64Size := by
  have hafter := fanOutLoop_after chunk l hnd ⟨false, 0, 0⟩ b
  refine ⟨?_, fun k total hk => ?_⟩
  · have hlive : (fanOutLoop chunk l ⟨false, 0, 0⟩ b).1.live = true ↔
        ∃ s ∈ l, (b.chans s.tx).isOpen = true := by simpa using hafter.live
    simp only [routeChannelData, fanOut, Option.map_some, Option.elim_some, hstat,
      hafter.delivered, hlive, Bool.false_eq_true, if_false]
  · rw [← sum_missed]
    exact hafter.full k total hk

namespace CodecNode

variable {σ : Type*} {s : CodecNode σ} {channels : Finset String}

structure Entered (channels : Finset String) (r : RoutedData) : Prop where
  unconfigured : r.fate = .unconfigured ↔ r.channel ∉ channels
  dropped : r.fate = .droppedFull → r.fullAt ≠ []
  unharmed : r.fate = .unattached ∨ r.fate = .unconfigured → r.fullAt = []

structure Accounts (channels : Finset String) (s : CodecNode σ) : Prop where
  sinks : ∀ c l, s.sinks c = some l → (l.map (·.tx)).Nodup ∧ ∀ k ∈ l.map (·.tx), k ∈ s.given
  configured : ∀ c, s.stats c = none ↔ c ∉ channels
  stats : ∀ c stat, s.stats c = some stat → stat.foldsFull = false ∧
    stat.delivered = bytesWhere (·.is c .delivered) s.log % u64Size ∧
    stat.discarded = bytesWhere (·.is c .unattached) s.log % u64Size
  unconfigured : s.unconfigured.bytes = bytesWhere (·.fate = .unconfigured) s.log % u64Size
  full : ∀ k, s.buffers.full k = chargedAt k s.log % u64Size
  entered : ∀ r ∈ s.log, Entered channels r

theorem Accounts.start (codec : σ) (channels : Finset String) (wired : String → Bool)
    (attached : Bool) : (start codec channels wired attached).Accounts channels where
  sinks c l h := by
    have hl : (if wired c then some [] else none) = some l := h
    split_ifs at hl
    obtain rfl := Option.some.inj hl
    exact ⟨nodup_nil, fun k hk => by cases hk⟩
  configured c := by simp [CodecNode.start]
  stats c stat h := by
    have hstat : (if c ∈ channels then some ⟨false, 0, 0, false⟩ else none) = some stat := h
    split_ifs at hstat
    obtain rfl := Option.some.inj hstat
    exact ⟨rfl, rfl, rfl⟩
  unconfigured := rfl
  full _ := rfl
  entered _ h := by cases h

variable {l : List FanOutSink}

theorem taker_iff : s.taker l = true ↔ ∃ sink ∈ l, fate (s.buffers.chans sink.tx) = some true := by
  simp [taker]

theorem live_iff : s.live l = true ↔ ∃ sink ∈ l, (s.buffers.chans sink.tx).isOpen = true := by
  simp [live]

theorem live_of_taker (h : s.taker l = true) : s.live l = true := by
  obtain ⟨sink, hsink, hfate⟩ := taker_iff.mp h
  refine live_iff.mpr ⟨sink, hsink, ?_⟩
  by_contra hclosed
  rw [fate, if_neg hclosed] at hfate
  cases hfate

section wired
variable {c : String} {stat : HostwardChannelStat} {l : List FanOutSink}

theorem fateOf_eq_delivered (hstat : s.stats c = some stat) (hl : s.sinks c = some l) :
    s.fateOf c = .delivered ↔ s.taker l = true := by
  simp only [fateOf, hstat, hl]
  by_cases htk : s.taker l = true
  · simp [htk]
  · by_cases hlv : s.live l = true <;> simp [htk, hlv]

theorem fateOf_eq_unattached (hstat : s.stats c = some stat) (hl : s.sinks c = some l) :
    s.fateOf c = .unattached ↔ ¬ s.live l = true := by
  simp only [fateOf, hstat, hl]
  by_cases htk : s.taker l = true
  · simp [htk, live_of_taker htk]
  · by_cases hlv : s.live l = true <;> simp [htk, hlv]

end wired

variable {l : List FanOutSink} {c : String} {stat : HostwardChannelStat}

theorem exists_full (hlive : s.live l = true) (htaker : s.taker l = false) :
    ∃ sink ∈ l, fate (s.buffers.chans sink.tx) = some false := by
  obtain ⟨sink, hsink, hopen⟩ := any_eq_true.mp hlive
  have hnot := any_eq_false.mp htaker sink hsink
  refine ⟨sink, hsink, ?_⟩
  unfold fate at hnot ⊢
  rw [if_pos hopen] at hnot ⊢
  simpa using hnot

theorem not_full (hlive : s.live l = false) {sink : FanOutSink} (hsink : sink ∈ l) :
    fate (s.buffers.chans sink.tx) ≠ some false := by
  have hclosed := any_eq_false.mp hlive sink hsink
  rw [fate, if_neg hclosed]
  simp

theorem Accounts.entry (h : s.Accounts channels) (c : String) (bytes : Chunk) :
    Entered channels ⟨c, bytes, s.fateOf c, s.fullAt c⟩ := by
  have hconf := h.configured c
  unfold fateOf fullAt
  cases hstat : s.stats c with
  | none =>
    rw [hstat] at hconf
    exact ⟨iff_of_true rfl (hconf.mp rfl), nofun, fun _ => rfl⟩
  | some stat =>
    rw [hstat] at hconf
    have hmem : ¬ c ∉ channels := fun hc => by cases hconf.mpr hc
    cases hl : s.sinks c with
    | none => exact ⟨iff_of_false nofun hmem, nofun, fun _ => rfl⟩
    | some l =>
      dsimp only
      cases htaker : s.taker l with
      | true => exact ⟨iff_of_false nofun hmem, nofun, nofun⟩
      | false =>
        cases hlive : s.live l with
        | true =>
          refine ⟨iff_of_false nofun hmem, fun _ hnil => ?_, nofun⟩
          obtain ⟨sink, hsink, hfull⟩ := exists_full hlive htaker
          have hall := filter_eq_nil_iff.mp (map_eq_nil_iff.mp hnil) sink hsink
          exact hall (by simpa using hfull)
        | false =>
          refine ⟨iff_of_false nofun hmem, nofun, fun _ => ?_⟩
          refine map_eq_nil_iff.mpr (filter_eq_nil_iff.mpr fun sink hsink => ?_)
          simpa using not_full hlive hsink

theorem Accounts.route (h : s.Accounts channels) (hstat : s.stats c = some stat) (bytes : Chunk) :
    ∃ b' stat', routeChannelData bytes (s.sinks c) s.buffers (some stat) = (b', some stat') ∧
      stat'.foldsFull = false ∧
      (∀ total, stat.delivered = total % u64Size → stat'.delivered =
        (total + if s.fateOf c = .delivered then bytes.length else 0) % u64Size) ∧
      (∀ total, stat.discarded = total % u64Size → stat'.discarded =
        (total + if s.fateOf c = .unattached then bytes.length else 0) % u64Size) ∧
      ∀ k total, s.buffers.full k = total % u64Size → b'.full k =
        (total + (s.fullAt c).count k * bytes.length) % u64Size := by
  obtain ⟨hfolds, -, -⟩ := h.stats c stat hstat
  cases hl : s.sinks c with
  | none =>
    have hfate : s.fateOf c = .unattached := by rw [fateOf, hstat, hl]
    have hfull : s.fullAt c = [] := by rw [fullAt, hstat, hl]
    rw [hfate, hfull]
    refine ⟨_, _, rfl, hfolds, fun total ht => ht, fun total ht => ?_, fun k total ht => ?_⟩
    · dsimp only
      rw [ht, wrappingAdd_mod, if_pos rfl]
    · rw [ht, count_nil, Nat.zero_mul, Nat.add_zero]
  | some l =>
    obtain ⟨hroute, hcharged⟩ := routeChannelData_sinks (h.sinks c l hl).1 bytes s.buffers hfolds
    have hfull : s.fullAt c =
        (l.filter fun sink => fate (s.buffers.chans sink.tx) = some false).map (·.counters) := by
      rw [fullAt, hstat, hl]
    have heq := congrArg (Prod.mk (routeChannelData bytes (some l) s.buffers (some stat)).1) hroute
    rw [hfull]
    refine ⟨_, _, heq, hfolds, fun total ht => ?_, fun total ht => ?_, hcharged⟩
    · dsimp only
      rw [ht, wrappingAdd_mod]
      simp only [fateOf_eq_delivered hstat hl, taker_iff]
    · dsimp only
      rw [ht, wrappingAdd_mod]
      simp only [fateOf_eq_unattached hstat hl, ← live_iff]
      by_cases hlv : s.live l = true <;> simp [hlv]

theorem Accounts.enter (h : s.Accounts channels) {r : RoutedData} (hr : Entered channels r)
    {stats' : String → Option HostwardChannelStat} {buffers' : Buffers}
    {unconfigured' : UnconfiguredChannels} (hconf : ∀ c, stats' c = none ↔ s.stats c = none)
    (hstats : ∀ c stat', stats' c = some stat' → ∃ stat, s.stats c = some stat ∧
      stat'.foldsFull = false ∧
      (∀ total, stat.delivered = total % u64Size → stat'.delivered =
        (total + if r.is c .delivered then r.bytes.length else 0) % u64Size) ∧
      ∀ total, stat.discarded = total % u64Size → stat'.discarded =
        (total + if r.is c .unattached then r.bytes.length else 0) % u64Size)
    (hbytes : unconfigured'.bytes = wrappingAdd s.unconfigured.bytes
      (if r.fate = .unconfigured then r.bytes.length else 0))
    (hfull : ∀ k total, s.buffers.full k = total % u64Size → buffers'.full k =
      (total + r.fullAt.count k * r.bytes.length) % u64Size) :
    ({ s with
        stats := stats'
        buffers := buffers'
        unconfigured := unconfigured'
        log := s.log ++ [r] } : CodecNode σ).Accounts channels where
  sinks := h.sinks
  configured c := (hconf c).trans (h.configured c)
  stats c stat' hstat' := by
    obtain ⟨stat, hstat, hfolds, hdelivered, hdiscarded⟩ := hstats c stat' hstat'
    obtain ⟨-, hd, hu⟩ := h.stats c stat hstat
    dsimp only
    rw [bytesWhere_concat, bytesWhere_concat]
    exact ⟨hfolds, hdelivered _ hd, hdiscarded _ hu⟩
  unconfigured := by
    rw [bytesWhere_concat, hbytes, h.unconfigured, wrappingAdd_mod]
    simp
  full k := by
    dsimp only
    rw [hfull k _ (h.full k), chargedAt, chargedAt, map_append, sum_append]
    simp
  entered r' hr' := by
    rcases mem_append.mp hr' with hr' | hr'
    · exact h.entered r' hr'
    · exact mem_singleton.mp hr' ▸ hr

theorem Accounts.unconfiguredData (h : s.Accounts channels) (hstat : s.stats c = none)
    (bytes : Chunk) :
    ({ s with
        unconfigured := s.unconfigured.record c bytes.length
        log := s.log ++ [⟨c, bytes, s.fateOf c, s.fullAt c⟩] } : CodecNode σ).Accounts
      channels := by
  have hfate : s.fateOf c = .unconfigured := by rw [fateOf, hstat]
  have hfull : s.fullAt c = [] := by rw [fullAt, hstat]
  refine h.enter (h.entry c bytes) (fun _ => Iff.rfl) (fun c' stat hs => ?_) ?_ fun k total ht => ?_
  · obtain ⟨hfolds, -, -⟩ := h.stats c' stat hs
    refine ⟨stat, hs, hfolds, fun total ht => ?_, fun total ht => ?_⟩
    · rw [if_neg (by simp [RoutedData.is, hfate])]
      exact ht
    · rw [if_neg (by simp [RoutedData.is, hfate])]
      exact ht
  · rw [if_pos hfate]
    rfl
  · rw [hfull, count_nil, Nat.zero_mul]
    exact ht

theorem Accounts.channelData (h : s.Accounts channels) (hstat : s.stats c = some stat)
    (bytes : Chunk) :
    ({ s with
        buffers := (routeChannelData bytes (s.sinks c) s.buffers (some stat)).1
        stats := update s.stats c
          (routeChannelData bytes (s.sinks c) s.buffers (some stat)).2
        log := s.log ++ [⟨c, bytes, s.fateOf c, s.fullAt c⟩] } : CodecNode σ).Accounts
      channels := by
  obtain ⟨b', stat', heq, hfolds, hdelivered, hdiscarded, hfull⟩ := h.route hstat bytes
  rw [heq]
  refine h.enter (h.entry c bytes) (fun c' => ?_) (fun c' new hnew => ?_) ?_ hfull
  · by_cases hc : c' = c
    · subst hc
      simp [hstat]
    · rw [update_of_ne hc]
  · by_cases hc : c' = c
    · subst hc
      obtain rfl : stat' = new := by simpa using hnew
      refine ⟨stat, hstat, hfolds, ?_, ?_⟩
      · simpa [RoutedData.is] using hdelivered
      · simpa [RoutedData.is] using hdiscarded
    · rw [update_of_ne hc] at hnew
      have hother (fate : DataFate) :
          RoutedData.is c' fate ⟨c, bytes, s.fateOf c, s.fullAt c⟩ = false := by
        simp [RoutedData.is, Ne.symm hc]
      exact ⟨new, hnew, (h.stats c' new hnew).1, fun total ht => by simpa [hother] using ht,
        fun total ht => by simpa [hother] using ht⟩
  · have hmem : c ∈ channels := by
      by_contra hc
      rw [(h.configured c).mpr hc] at hstat
      cases hstat
    have hfate : ¬ s.fateOf c = .unconfigured := fun hf =>
      (h.entry c bytes).unconfigured.mp hf hmem
    rw [if_neg hfate, h.unconfigured, wrappingAdd_mod, Nat.add_zero]

theorem Accounts.setActive (h : s.Accounts channels) (hstat : s.stats c = some stat)
    (active : Bool) :
    ({ s with
        stats := update s.stats c (some { stat with active }) } : CodecNode σ).Accounts
      channels := by
  refine ⟨h.sinks, fun c' => ?_, fun c' new hnew => ?_, h.unconfigured, h.full, h.entered⟩
  · by_cases hc : c' = c
    · subst hc
      simpa [hstat] using h.configured c'
    · dsimp only
      rw [update_of_ne hc]
      exact h.configured c'
  · by_cases hc : c' = c
    · subst hc
      obtain rfl : { stat with active } = new := by simpa using hnew
      exact h.stats c' stat hstat
    · dsimp only at hnew
      rw [update_of_ne hc] at hnew
      exact h.stats c' new hnew

theorem Accounts.routeEvent (h : s.Accounts channels) (event : Event) :
    (s.routeEvent event).Accounts channels := by
  unfold CodecNode.routeEvent
  cases hkind : event.kind with
  | data bytes =>
    cases hstat : s.stats event.channel with
    | none => exact h.unconfiguredData hstat bytes
    | some stat => exact h.channelData hstat bytes
  | opened =>
    cases hstat : s.stats event.channel with
    | none =>
      refine ⟨h.sinks, h.configured, h.stats, ?_, h.full, h.entered⟩
      change wrappingAdd s.unconfigured.bytes 0 = _
      rw [h.unconfigured, wrappingAdd_mod, Nat.add_zero]
    | some stat => exact h.setActive hstat true
  | closed =>
    cases hstat : s.stats event.channel with
    | none => exact h
    | some stat => exact h.setActive hstat false
  | error message => exact h

def logged (s : CodecNode σ) : List (String × Chunk) := s.log.map fun r => (r.channel, r.bytes)

theorem routeEvent_logged (s : CodecNode σ) (event : Event) :
    (s.routeEvent event).logged = s.logged ++ dataOf [event] := by
  unfold CodecNode.routeEvent
  cases hkind : event.kind <;> cases hstat : s.stats event.channel <;>
    simp [logged, dataOf, hkind]

theorem foldl_routeEvent (h : s.Accounts channels) (events : List Event) :
    (events.foldl CodecNode.routeEvent s).Accounts channels ∧
      (events.foldl CodecNode.routeEvent s).logged = s.logged ++ dataOf events := by
  induction events generalizing s with
  | nil => exact ⟨h, by simp [dataOf]⟩
  | cons event events ih =>
    obtain ⟨haccounts, hlogged⟩ := ih (h.routeEvent event)
    refine ⟨haccounts, ?_⟩
    rw [foldl_cons, hlogged, routeEvent_logged, append_assoc]
    congr 1
    rw [dataOf, dataOf, dataOf, ← filterMap_append]
    rfl

section run
variable {transform : σ → Chunk → Demuxed σ} {codec : σ}

structure Sound (transform : σ → Chunk → Demuxed σ) (codec : σ) (channels : Finset String)
    (s : CodecNode σ) : Prop where
  accounts : s.Accounts channels
  state : s.codec = codecAfter transform codec s.processed
  logged : s.logged =
    (transcript transform codec s.processed).flatMap fun call => dataOf call.events
  loss : s.demux.discardedHostward =
    ((transcript transform codec s.processed).map DemuxCall.loss).sum % u64Size
  errors : s.demux.errors =
    (transcript transform codec s.processed).countP DemuxCall.refused % u64Size

theorem noteResult_demux (s : CodecNode σ) (call : DemuxCall) :
    (s.noteResult call.chunk call.events call.result).demux.errors =
        (if call.refused then wrappingAdd s.demux.errors 1 else s.demux.errors) ∧
      (s.noteResult call.chunk call.events call.result).demux.discardedHostward =
        (if call.refused then wrappingAdd s.demux.discardedHostward call.loss
          else s.demux.discardedHostward) := by
  obtain ⟨chunk, result, events⟩ := call
  cases result with
  | error e =>
    unfold noteResult noteDemuxError
    dsimp only
    split <;> exact ⟨rfl, rfl⟩
  | ok =>
    unfold noteResult
    dsimp only
    split <;> exact ⟨rfl, rfl⟩

theorem noteResult_frame (s : CodecNode σ) (chunk : Chunk) (events : List Event)
    (result : Except CodecError Unit) :
    ∃ demux status, s.noteResult chunk events result = { s with demux, status } := by
  unfold noteResult
  split
  · unfold noteDemuxError
    dsimp only
    split
    · exact ⟨_, _, rfl⟩
    · exact ⟨_, _, rfl⟩
  · split
    · exact ⟨_, _, rfl⟩
    · exact ⟨_, _, rfl⟩

theorem Accounts.of_eq (h : s.Accounts channels) {s' : CodecNode σ} (hsinks : s'.sinks = s.sinks)
    (hgiven : s'.given = s.given) (hstats : s'.stats = s.stats)
    (hunconf : s'.unconfigured = s.unconfigured) (hfull : s'.buffers.full = s.buffers.full)
    (hlog : s'.log = s.log) : s'.Accounts channels := by
  obtain ⟨h1, h2, h3, h4, h5, h6⟩ := h
  exact ⟨by rwa [hsinks, hgiven], by rwa [hstats], by rwa [hstats, hlog], by rwa [hunconf, hlog],
    by rwa [hfull, hlog], by rwa [hlog]⟩

def nextCall (s : CodecNode σ) (transform : σ → Chunk → Demuxed σ) (chunk : Chunk) : DemuxCall :=
  ⟨chunk, (transform s.codec chunk).result, (transform s.codec chunk).events⟩

theorem demuxChunk_call (s : CodecNode σ) (transform : σ → Chunk → Demuxed σ) (chunk : Chunk) :
    (s.demuxChunk transform chunk).codec = (transform s.codec chunk).codec ∧
      (s.demuxChunk transform chunk).processed = s.processed ++ [chunk] ∧
      (s.demuxChunk transform chunk).pending = s.pending ∧
      (s.demuxChunk transform chunk).demux.errors =
        (if (s.nextCall transform chunk).refused then wrappingAdd s.demux.errors 1
          else s.demux.errors) ∧
      (s.demuxChunk transform chunk).demux.discardedHostward =
        (if (s.nextCall transform chunk).refused then
          wrappingAdd s.demux.discardedHostward (s.nextCall transform chunk).loss
        else s.demux.discardedHostward) := by
  let s₁ := s.recordCall chunk (transform s.codec chunk)
  let s₂ := s₁.noteResult chunk (transform s.codec chunk).events (transform s.codec chunk).result
  obtain ⟨buffers, stats, unconfigured, log, hrouted⟩ :=
    s₂.foldl_routeEvent_frame (transform s.codec chunk).events
  obtain ⟨demux, status, hnoted⟩ :=
    s₁.noteResult_frame chunk (transform s.codec chunk).events (transform s.codec chunk).result
  obtain ⟨herrors, hloss⟩ := s₁.noteResult_demux (s.nextCall transform chunk)
  have hchunk : s.demuxChunk transform chunk = { s₂ with buffers, stats, unconfigured, log } :=
    hrouted
  have hpending : s₂.pending = s.pending := by
    change (s₁.noteResult _ _ _).pending = _
    rw [hnoted]
    rfl
  rw [hchunk]
  exact ⟨congrArg CodecNode.codec hnoted, congrArg CodecNode.processed hnoted, hpending, herrors,
    hloss⟩

theorem Accounts.demuxChunk (h : s.Accounts channels) (transform : σ → Chunk → Demuxed σ)
    (chunk : Chunk) :
    (s.demuxChunk transform chunk).Accounts channels ∧
      (s.demuxChunk transform chunk).logged =
        s.logged ++ dataOf (s.nextCall transform chunk).events := by
  obtain ⟨demux, status, hnoted⟩ := (s.recordCall chunk (transform s.codec chunk)).noteResult_frame
    chunk (transform s.codec chunk).events (transform s.codec chunk).result
  rw [CodecNode.demuxChunk, hnoted]
  apply foldl_routeEvent
  exact h.of_eq rfl rfl rfl rfl rfl rfl

theorem Sound.demuxChunk (h : s.Sound transform codec channels) (chunk : Chunk) :
    (s.demuxChunk transform chunk).Sound transform codec channels := by
  have hcalls : transcript transform codec (s.processed ++ [chunk]) =
      transcript transform codec s.processed ++ [s.nextCall transform chunk] := by
    rw [transcript_concat, ← h.state]
    rfl
  obtain ⟨hcodec, hprocessed, -, herrors, hloss⟩ := s.demuxChunk_call transform chunk
  obtain ⟨haccounts, hlogged⟩ := h.accounts.demuxChunk transform chunk
  refine ⟨haccounts, ?_, ?_, ?_, ?_⟩
  · rw [hcodec, hprocessed, codecAfter_concat, ← h.state]
  · rw [hlogged, hprocessed, hcalls, flatMap_append, ← h.logged]
    simp
  · rw [hloss, hprocessed, hcalls, map_append, sum_append, h.loss, wrappingAdd_mod]
    cases hr : (s.nextCall transform chunk).refused with
    | true => simp
    | false => simp [DemuxCall.loss_of_accepted hr]
  · rw [herrors, hprocessed, hcalls, countP_append, h.errors, wrappingAdd_mod]
    cases hr : (s.nextCall transform chunk).refused <;> simp [hr]

theorem Sound.of_eq (h : s.Sound transform codec channels) {s' : CodecNode σ}
    (haccounts : s'.Accounts channels) (hcodec : s'.codec = s.codec)
    (hprocessed : s'.processed = s.processed) (hlog : s'.log = s.log)
    (herrors : s'.demux.errors = s.demux.errors)
    (hloss : s'.demux.discardedHostward = s.demux.discardedHostward) :
    s'.Sound transform codec channels := by
  refine ⟨haccounts, ?_, ?_, ?_, ?_⟩
  · rw [hcodec, hprocessed]
    exact h.state
  · rw [CodecNode.logged, hlog, hprocessed]
    exact h.logged
  · rw [hloss, hprocessed]
    exact h.loss
  · rw [herrors, hprocessed]
    exact h.errors

theorem Accounts.attach (h : s.Accounts channels) {channel : String} {sink : FanOutSink} (cap : ℕ)
    (hnew : sink.tx ∉ s.given) :
    (s.step transform (.attach channel sink cap)).Accounts channels := by
  refine ⟨fun c l hl => ?_, h.configured, h.stats, h.unconfigured, h.full, h.entered⟩
  have hl : update s.sinks channel ((s.sinks channel).map (· ++ [sink])) c = some l := hl
  change _ ∧ ∀ k ∈ l.map (·.tx), k ∈ s.given ++ [sink.tx]
  by_cases hc : c = channel
  · subst hc
    rw [update_self] at hl
    obtain ⟨old, hold, rfl⟩ := Option.map_eq_some_iff.mp hl
    obtain ⟨hnd, hgiven⟩ := h.sinks c old hold
    rw [map_append, map_singleton]
    refine ⟨?_, fun k hk => ?_⟩
    · exact concat_eq_append ▸ hnd.concat fun hk => hnew (hgiven _ hk)
    · exact mem_append.mpr ((mem_append.mp hk).imp_left (hgiven k))
  · rw [update_of_ne hc] at hl
    obtain ⟨hnd, hgiven⟩ := h.sinks c l hl
    exact ⟨hnd, fun k hk => mem_append_left _ (hgiven k hk)⟩

theorem Accounts.detach (h : s.Accounts channels) (channel : String) (target : EndpointAddr) :
    (s.step transform (.detach channel target)).Accounts channels := by
  refine ⟨fun c l hl => ?_, h.configured, h.stats, h.unconfigured, h.full, h.entered⟩
  have hl : update s.sinks channel
      ((s.sinks channel).map fun l => l.filter (·.target ≠ target)) c = some l := hl
  by_cases hc : c = channel
  · subst hc
    rw [update_self] at hl
    obtain ⟨old, hold, rfl⟩ := Option.map_eq_some_iff.mp hl
    obtain ⟨hnd, hgiven⟩ := h.sinks c old hold
    have hsub := (filter_sublist (l := old) (p := (·.target ≠ target))).map (·.tx)
    exact ⟨hnd.sublist hsub, fun k hk => hgiven k (hsub.subset hk)⟩
  · rw [update_of_ne hc] at hl
    exact h.sinks c l hl

theorem Sound.step (h : s.Sound transform codec channels) {a : CodecNodeAct} (ha : s.Allowed a) :
    (s.step transform a).Sound transform codec channels := by
  cases a with
  | arrive | setUpstreamAttached =>
    exact h.of_eq (h.accounts.of_eq rfl rfl rfl rfl rfl rfl) rfl rfl rfl rfl rfl
  | demux =>
    unfold CodecNode.step
    dsimp only
    cases s.pending with
    | nil => exact h
    | cons chunk rest =>
      apply Sound.demuxChunk
      exact h.of_eq (h.accounts.of_eq rfl rfl rfl rfl rfl rfl) rfl rfl rfl rfl rfl
  | attach channel sink cap => exact h.of_eq (h.accounts.attach cap ha) rfl rfl rfl rfl rfl
  | detach channel target => exact h.of_eq (h.accounts.detach channel target) rfl rfl rfl rfl rfl
  | receive | hangUp => exact h.of_eq (h.accounts.of_eq rfl rfl rfl rfl rfl rfl) rfl rfl rfl rfl rfl

theorem sum_delivered {log : List RoutedData} (h : ∀ r ∈ log, Entered channels r) :
    ∑ c ∈ channels, bytesWhere (·.is c .delivered) log = bytesWhere (·.fate = .delivered) log := by
  induction log using List.reverseRecOn with
  | nil => simp [bytesWhere]
  | append_singleton log r ih =>
    have hrest := ih fun r' hr' => h r' (mem_append_left _ hr')
    have hr := (h r (mem_append_right _ (mem_singleton_self _))).unconfigured
    simp only [bytesWhere_concat, Finset.sum_add_distrib, hrest]
    congr 1
    by_cases hfate : r.fate = .delivered
    · have hmem : r.channel ∈ channels := by
        by_contra hc
        rw [hr.mpr hc] at hfate
        cases hfate
      simp [RoutedData.is, hfate, hmem]
    · simp [RoutedData.is, hfate]

def arrivals (acts : List CodecNodeAct) : List Chunk :=
  acts.filterMap fun
    | .arrive chunk => some chunk
    | _ => none

theorem run_arrivals (transform : σ → Chunk → Demuxed σ) (s : CodecNode σ)
    (acts : List CodecNodeAct) :
    ((machine transform).run s acts).processed ++ ((machine transform).run s acts).pending =
      s.processed ++ s.pending ++ arrivals acts := by
  induction acts generalizing s with
  | nil => exact (append_nil _).symm
  | cons a acts ih =>
    rw [Runs.Machine.run_cons, ih]
    change (s.step transform a).processed ++ (s.step transform a).pending ++ _ = _
    cases a with
    | arrive chunk => simp [CodecNode.step, arrivals]
    | demux =>
      unfold CodecNode.step
      dsimp only
      cases hpending : s.pending with
      | nil =>
        dsimp only
        rw [hpending]
        rfl
      | cons chunk rest =>
        obtain ⟨-, hprocessed, hrest, -, -⟩ :=
          ({ s with pending := rest } : CodecNode σ).demuxChunk_call transform chunk
        dsimp only
        rw [hprocessed, hrest, append_cons s.processed chunk rest]
        rfl
    | setUpstreamAttached | attach | detach | receive | hangUp => rfl

def Takes (s : CodecNode σ) (event : Event) (bytes : Chunk) (sink : FanOutSink) : Prop :=
  ((s.routeEvent event).buffers.chans sink.tx).queue = (s.buffers.chans sink.tx).queue ++ [bytes]

theorem Accounts.delivered_iff (h : s.Accounts channels) (c : String) (bytes : Chunk) :
    s.fateOf c = .delivered ↔
      ∃ l, s.sinks c = some l ∧ ∃ sink ∈ l, s.Takes ⟨c, .data bytes⟩ bytes sink := by
  cases hstat : s.stats c with
  | none => simp [fateOf, Takes, CodecNode.routeEvent, hstat]
  | some stat =>
    cases hl : s.sinks c with
    | none => simp [fateOf, hstat, hl]
    | some l =>
      have hafter := fanOutLoop_after bytes l (h.sinks c l hl).1 ⟨false, 0, 0⟩ s.buffers
      have htakes : ∀ sink ∈ l, s.Takes ⟨c, .data bytes⟩ bytes sink ↔
          fate (s.buffers.chans sink.tx) = some true := by
        intro sink hsink
        have hchan := hafter.chans sink.tx
        rw [if_pos (mem_map_of_mem hsink)] at hchan
        rw [← trySend_queue_iff (s.buffers.chans sink.tx) bytes, ← hchan]
        simp only [Takes, CodecNode.routeEvent, hstat, hl]
        rfl
      rw [fateOf_eq_delivered hstat hl, taker_iff]
      constructor
      · rintro ⟨sink, hsink, hroom⟩
        exact ⟨l, rfl, sink, hsink, (htakes sink hsink).mpr hroom⟩
      · rintro ⟨l', heq, sink, hsink, htaken⟩
        obtain rfl := Option.some.inj heq
        exact ⟨sink, hsink, (htakes sink hsink).mp htaken⟩

theorem Sound.start (transform : σ → Chunk → Demuxed σ) (codec : σ) (channels : Finset String)
    (wired : String → Bool) (attached : Bool) :
    (start codec channels wired attached).Sound transform codec channels :=
  ⟨Accounts.start codec channels wired attached, rfl, rfl, rfl, rfl⟩

end run

theorem hostward_accounting (transform : σ → Chunk → Demuxed σ) (codec : σ)
    (channels : Finset String) (wired : String → Bool) (attached : Bool) (acts : List CodecNodeAct)
    (hl : (machine transform).Legal (start codec channels wired attached) acts) :
    let s := (machine transform).run (start codec channels wired attached) acts
    let calls := transcript transform codec s.processed
    s.processed ++ s.pending = arrivals acts ∧
      s.logged = calls.flatMap (fun call => dataOf call.events) ∧
      (∀ r ∈ s.log, Entered channels r) ∧
      (∀ c ∈ channels, ∃ stat, s.stats c = some stat ∧
        stat.delivered = bytesWhere (·.is c .delivered) s.log % u64Size ∧
        stat.discarded = bytesWhere (·.is c .unattached) s.log % u64Size) ∧
      s.unconfigured.bytes = bytesWhere (·.fate = .unconfigured) s.log % u64Size ∧
      (∀ k, s.buffers.full k = chargedAt k s.log % u64Size) ∧
      s.demux.errors = calls.countP DemuxCall.refused % u64Size ∧
      s.demux.discardedHostward = (calls.map DemuxCall.loss).sum % u64Size ∧
      (∑ c ∈ channels, (s.stats c).elim 0 (·.delivered)) % u64Size =
        bytesWhere (·.fate = .delivered) s.log % u64Size ∧
      ∀ (events : List Event) (c : String) (bytes : Chunk),
        let s' := events.foldl routeEvent s
        s'.fateOf c = .delivered ↔
          ∃ l, s'.sinks c = some l ∧ ∃ sink ∈ l, s'.Takes ⟨c, .data bytes⟩ bytes sink := by
  intro s calls
  have hsound : s.Sound transform codec channels :=
    Runs.Machine.invariant (I := Sound transform codec channels) (fun _ _ h ha => h.step ha)
      (Sound.start transform codec channels wired attached) hl
  have hacc := hsound.accounts
  have hstats (c : String) (hc : c ∈ channels) : ∃ stat, s.stats c = some stat ∧
      stat.delivered = bytesWhere (·.is c .delivered) s.log % u64Size ∧
      stat.discarded = bytesWhere (·.is c .unattached) s.log % u64Size := by
    cases hstat : s.stats c with
    | none => exact absurd hc ((hacc.configured c).mp hstat)
    | some stat => exact ⟨stat, rfl, (hacc.stats c stat hstat).2⟩
  refine ⟨run_arrivals transform _ acts, hsound.logged, hacc.entered, hstats, hacc.unconfigured,
    hacc.full, hsound.errors, hsound.loss, ?_,
    fun events => (foldl_routeEvent hacc events).1.delivered_iff⟩
  have hterm : ∀ c ∈ channels, (s.stats c).elim 0 (·.delivered) =
      bytesWhere (·.is c .delivered) s.log % u64Size := by
    intro c hc
    obtain ⟨stat, hstat, hdelivered, -⟩ := hstats c hc
    rw [hstat, Option.elim_some, hdelivered]
  rw [Finset.sum_congr rfl hterm, ← Finset.sum_nat_mod, sum_delivered hacc.entered]

def splitting (_ : Unit) (chunk : Chunk) : Demuxed Unit :=
  ⟨if chunk.head? = some 0 then .error (.framing "zero") else .ok (),
    [⟨"a", .opened⟩, ⟨"a", .data (chunk.tail.take 2)⟩, ⟨"b", .data (chunk.take 1)⟩], ()⟩

def consumerRun : List CodecNodeAct :=
  [.arrive [1, 2, 3], .demux, .attach "a" ⟨⟨"host", "in"⟩, 0, 7⟩ 1, .arrive [0, 4, 5, 6, 7], .demux,
    .arrive [1, 8], .arrive [0], .setUpstreamAttached false, .demux, .hangUp 0, .demux]

theorem hostward_accounting_consumerRun :
    let s := (machine splitting).run (start () {"a"} (fun _ => true) true) consumerRun
    (s.log.map fun r => (r.channel, r.bytes, r.fate)) =
        [("a", [2, 3], .unattached), ("b", [1], .unconfigured), ("a", [4, 5], .delivered),
          ("b", [0], .unconfigured), ("a", [8], .droppedFull), ("b", [1], .unconfigured),
          ("a", [], .unattached), ("b", [0], .unconfigured)] ∧
      s.unconfigured.bytes = 4 ∧ s.buffers.full 7 = 1 ∧ s.demux.discardedHostward = 2 ∧
      (∑ c ∈ {"a"}, (s.stats c).elim 0 (·.delivered)) % u64Size =
        bytesWhere (·.fate = .delivered) s.log % u64Size := by
  have hlegal : (machine splitting).Legal (start () {"a"} (fun _ => true) true) consumerRun := by
    decide +kernel
  obtain ⟨-, -, -, -, -, -, -, -, hsum, -⟩ :=
    hostward_accounting splitting () {"a"} (fun _ => true) true consumerRun hlegal
  exact ⟨by decide +kernel, by decide +kernel, by decide +kernel, by decide +kernel, hsum⟩

end CodecNode
end SerialNexus
