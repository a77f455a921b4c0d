import SerialNexus.Runs
import SerialNexus.TapQueues

/-! # Exactness of the tap stream

`TapWorld` puts the hub of one endpoint together with its feed and the control connections, and adds
a record of the past.  `TapWorld.machine` interleaves the operations of the hub with producers,
clients and the taps of other endpoints that share a connection. -/

namespace SerialNexus

open List Function
open TapHub (pieceMsgs replayPieces register_eq setTerminal)

def Ascending : ℕ → List Datum → ℕ → Prop
  | fro, [], upto => fro ≤ upto
  | fro, d :: ds, upto => fro ≤ d.offset ∧ Ascending (d.offset + d.bytes.length) ds upto

def holes : ℕ → List Datum → ℕ → ℕ
  | fro, [], upto => upto - fro
  | fro, d :: ds, upto => (d.offset - fro) + holes (d.offset + d.bytes.length) ds upto

def Datum.At (stream : Chunk) (d : Datum) : Prop :=
  d.offset + d.bytes.length ≤ stream.length ∧ d.bytes <+: stream.drop d.offset

def TapMsg.ExactIn (stream : Chunk) : TapMsg → Prop
  | .data _ bytes offset gapBefore => Datum.At stream ⟨bytes, offset, gapBefore⟩
  | .closed .. => True

section tiling
variable {fro upto : ℕ} {ds : List Datum}

theorem Ascending.grow (h : Ascending fro ds upto) (n : ℕ) : Ascending fro ds (upto + n) := by
  induction ds generalizing fro with
  | nil => exact Nat.le_add_right_of_le h
  | cons d ds ih => exact ⟨h.1, ih h.2⟩

theorem Ascending.append (h : Ascending fro ds upto) (bytes : Chunk) (gap : ℕ) :
    Ascending fro (ds ++ [⟨bytes, upto, gap⟩]) (upto + bytes.length) := by
  induction ds generalizing fro with
  | nil => exact ⟨h, le_rfl⟩
  | cons d ds ih => exact ⟨h.1, ih h.2⟩

theorem Ascending.holes_grow (h : Ascending fro ds upto) (n : ℕ) :
    holes fro ds (upto + n) = holes fro ds upto + n := by
  induction ds generalizing fro with
  | nil =>
    have : fro ≤ upto := h
    simp only [holes]
    omega
  | cons d ds ih =>
    simp only [holes]
    rw [ih h.2]
    omega

theorem Ascending.holes_append (h : Ascending fro ds upto) (bytes : Chunk) (gap : ℕ) :
    holes fro (ds ++ [⟨bytes, upto, gap⟩]) (upto + bytes.length) = holes fro ds upto := by
  induction ds generalizing fro with
  | nil => simp [holes]
  | cons d ds ih => simp only [cons_append, holes, ih h.2]

theorem Ascending.pairwise (h : Ascending fro ds upto) :
    (∀ d ∈ ds, fro ≤ d.offset) ∧ ds.Pairwise fun d e => d.bytes ≠ [] → d.offset < e.offset := by
  induction ds generalizing fro with
  | nil => simp
  | cons d ds ih =>
    obtain ⟨hge, hpw⟩ := ih h.2
    have hd := h.1
    refine ⟨?_, List.pairwise_cons.mpr ⟨?_, hpw⟩⟩
    · intro e he
      rcases mem_cons.mp he with rfl | he
      · exact hd
      · have := hge e he
        omega
    · intro e he hne
      have := hge e he
      have := length_pos_iff.mpr hne
      omega

variable {stream : Chunk} {m : TapMsg}

theorem Datum.At.append {stream : Chunk} {d : Datum} (h : d.At stream) (more : Chunk) :
    d.At (stream ++ more) := by
  refine ⟨by rw [length_append]; have := h.1; omega, ?_⟩
  have h1 := h.1
  rw [drop_append_of_le_length (by omega)]
  exact h.2.trans (prefix_append _ _)

theorem TapMsg.ExactIn.append {stream : Chunk} (h : m.ExactIn stream) (more : Chunk) :
    m.ExactIn (stream ++ more) := by
  cases m with
  | data => exact Datum.At.append h more
  | closed => trivial

theorem Datum.at_end (stream chunk : Chunk) (gap : ℕ) :
    Datum.At (stream ++ chunk) ⟨chunk, stream.length, gap⟩ := by
  refine ⟨by simp, ?_⟩
  simp

theorem pieces_tile (id : ℕ) (pieces : List Chunk) (offset : ℕ) :
    Ascending offset (dataFor id (pieceMsgs id pieces offset))
        (offset + pieces.flatten.length) ∧
      holes offset (dataFor id (pieceMsgs id pieces offset))
        (offset + pieces.flatten.length) = 0 := by
  induction pieces generalizing offset with
  | nil => simp [pieceMsgs, Ascending, holes]
  | cons piece pieces ih =>
    obtain ⟨h1, h2⟩ := ih (offset + piece.length)
    have hd : dataFor id (pieceMsgs id (piece :: pieces) offset) =
        ⟨piece, offset, 0⟩ :: dataFor id (pieceMsgs id pieces (offset + piece.length)) := by
      simp [pieceMsgs, dataFor, TapMsg.datumFor]
    rw [hd, flatten_cons, length_append, ← Nat.add_assoc]
    exact ⟨⟨le_rfl, h1⟩, by rw [holes, h2, Nat.sub_self]⟩

theorem pieces_at (id : ℕ) (pieces : List Chunk) (offset : ℕ)
    (h : stream.drop offset = pieces.flatten) (hle : offset ≤ stream.length)
    (hm : m ∈ pieceMsgs id pieces offset) : m.ExactIn stream := by
  induction pieces generalizing offset with
  | nil => cases hm
  | cons piece pieces ih =>
    have hlen : stream.length - offset = piece.length + pieces.flatten.length := by
      have := congrArg List.length h
      simpa using this
    rw [pieceMsgs, mem_cons] at hm
    rcases hm with rfl | hm
    · refine ⟨by dsimp only; omega, ?_⟩
      rw [h, flatten_cons]
      exact prefix_append _ _
    · refine ih (offset + piece.length) ?_ (by omega) hm
      rw [← drop_drop, h, flatten_cons, drop_left]

end tiling

structure Grant where
  out : ConnId
  wasOpen : Bool
  answer : Registered
deriving DecidableEq, Repr

structure TapWorld where
  hub : TapHub
  feed : Channel Chunk
  conns : Conns
  stream : Chunk
  sent : ConnId → List TapMsg
  received : ConnId → List TapMsg
  grants : ℕ → Option Grant

inductive TapAct where
  | mirror (chunk : Chunk)
  | skipped (n : ℕ)
  | drain
  | ingest (chunk : Chunk)
  | register (id : ℕ) (c : ConnId) (replay : Bool)
  | attachTerminal (id : ℕ) (c : ConnId)
  | close (id : ℕ)
  | armWait (id : ℕ) (matcher : Matcher) (lookback context : ℕ) (replay : Bool)
  | disarm (id : ℕ)
  | detachAll (reason : TapCloseReason)
  | receive (c : ConnId)
  | foreign (c : ConnId) (msg : TapMsg)
  | hangUp (c : ConnId)

namespace TapWorld

def start (endpoint : String) (ringCap epoch feedCap : ℕ) (conns : Conns) : TapWorld where
  hub := TapHub.new endpoint ringCap epoch
  feed := Channel.new feedCap
  conns := conns
  stream := []
  sent c := (conns c).out.queue
  received _ := []
  grants _ := none

variable (w : TapWorld)

def commit (hub : TapHub) (conns : Conns) : TapWorld :=
  { w with hub, conns, sent := fun c => w.sent c ++ w.conns.queued conns c }

def ingestChunk (chunk : Chunk) : TapWorld :=
  let (hub, conns, _) := w.hub.ingest w.conns chunk
  { w.commit hub conns with stream := w.stream ++ chunk }

def registerTap (id : ℕ) (c : ConnId) (replay : Bool) : TapWorld :=
  let (answer, hub, conns) := w.hub.register w.conns id c 0 replay
  { w.commit hub conns with
    grants := update w.grants id (some ⟨c, (w.conns c).out.isOpen, answer⟩) }

def drainFeed : TapWorld :=
  match w.feed.recv with
  | (some chunk, feed) => { w with feed }.ingestChunk chunk
  | (none, _) => w

def detach (reason : TapCloseReason) : TapWorld :=
  let (_, hub, conns, _) := w.hub.detachAll w.conns reason
  w.commit hub conns

def receiveOn (c : ConnId) : TapWorld :=
  match (w.conns c).out.recv with
  | (some msg, out) =>
    { w with
      conns := update w.conns c { w.conns c with out }
      received := update w.received c (w.received c ++ [msg]) }
  | (none, _) => w

def hangUpOn (c : ConnId) : TapWorld :=
  { w with conns := update w.conns c { w.conns c with out := (w.conns c).out.hangUp } }

def step : TapAct → TapWorld
  | .mirror chunk =>
    let (hub, feed) := w.hub.mirror w.feed chunk
    { w with hub, feed }
  | .skipped n => { w with hub := w.hub.skipped n }
  | .drain => w.drainFeed
  | .ingest chunk => w.ingestChunk chunk
  | .register id c replay => w.registerTap id c replay
  | .attachTerminal id c => { w with hub := w.hub.attachTerminal id c }
  | .close id => { w with hub := w.hub.close id }
  | .armWait id matcher lookback context replay =>
    { w with hub := (w.hub.armWait id matcher lookback context replay).2 }
  | .disarm id => { w with hub := (w.hub.disarm id).2 }
  | .detachAll reason => w.detach reason
  | .receive c => w.receiveOn c
  | .foreign c msg => w.commit w.hub (w.conns.trySend c msg).2
  | .hangUp c => w.hangUpOn c

def Allowed : TapAct → Prop
  | .register id _ _ => w.grants id = none ∧ ∀ c, ∀ m ∈ w.sent c, m.tapId ≠ id
  | .foreign _ msg => w.grants msg.tapId = none
  | _ => True

def machine : Runs.Machine TapWorld TapAct where
  step := step
  ok := Allowed

structure Exact (w : TapWorld) : Prop where
  ingested : w.hub.ingested = w.stream.length
  ring : ∀ r, w.hub.ring = some r → r.snapshot = CircularBuffer.newest r.cap w.stream
  taps_nodup : (w.hub.taps.map (·.id)).Nodup
  taps_tile : ∀ t ∈ w.hub.taps, ∃ g, w.grants t.id = some g ∧ g.out = t.out ∧
    (g.wasOpen = true →
      Ascending g.answer.fromOffset (dataFor t.id (w.sent t.out)) w.stream.length ∧
        holes g.answer.fromOffset (dataFor t.id (w.sent t.out)) w.stream.length = t.dropped)
  sent_exact : ∀ c, ∀ m ∈ w.sent c, (w.grants m.tapId).isSome → m.ExactIn w.stream
  received_prefix : ∀ c, w.received c <+: w.sent c
  received_queue : ∀ c, (w.conns c).out.isOpen = true →
    w.received c ++ (w.conns c).out.queue = w.sent c

section steps
variable {w : TapWorld}

variable {hub : TapHub} {c : ConnId} {id : ℕ}

theorem Exact.of_hub (hw : w.Exact) (hi : hub.ingested = w.hub.ingested)
    (hr : ∀ r, hub.ring = some r → w.hub.ring = some r) (hnd : (hub.taps.map (·.id)).Nodup)
    (ht : ∀ t ∈ hub.taps,
      ∃ t' ∈ w.hub.taps, t'.id = t.id ∧ t'.out = t.out ∧ t'.dropped = t.dropped) :
    Exact { w with hub } where
  ingested := hi.trans hw.ingested
  ring r h := hw.ring r (hr r h)
  taps_nodup := hnd
  taps_tile t h := by
    obtain ⟨t', hmem, hid, hout, hdrop⟩ := ht t h
    have := hw.taps_tile t' hmem
    rwa [hid, hout, hdrop] at this
  sent_exact := hw.sent_exact
  received_prefix := hw.received_prefix
  received_queue := hw.received_queue

theorem Exact.of_same (hw : w.Exact) (hi : hub.ingested = w.hub.ingested)
    (hr : hub.ring = w.hub.ring) (ht : hub.taps = w.hub.taps) : Exact { w with hub } :=
  hw.of_hub hi (fun _ h => hr ▸ h) (ht ▸ hw.taps_nodup) fun t h => ⟨t, ht ▸ h, rfl, rfl, rfl⟩

theorem Exact.of_feed (hw : w.Exact) (feed : Channel Chunk) : Exact { w with feed } :=
  ⟨hw.ingested, hw.ring, hw.taps_nodup, hw.taps_tile, hw.sent_exact, hw.received_prefix,
    hw.received_queue⟩

theorem Exact.received_commit (hw : w.Exact) {conns : Conns} (hx : w.conns.Extends conns) (c : ConnId) :
    w.received c <+: w.sent c ++ w.conns.queued conns c ∧
      ((conns c).out.isOpen = true →
        w.received c ++ (conns c).out.queue = w.sent c ++ w.conns.queued conns c) := by
  refine ⟨(hw.received_prefix c).trans (prefix_append _ _), ?_⟩
  intro ho
  rw [hx.isOpen] at ho
  rw [← hx.queue, ← append_assoc, hw.received_queue c ho]

theorem ingestChunk_exact (hw : w.Exact) (chunk : Chunk)
    (hb : (w.stream ++ chunk).length < u64Size) : (w.ingestChunk chunk).Exact := by
  have hx := TapHub.fanOut_extends chunk w.hub.ingested w.hub.gapBefore w.hub.taps w.conns
  have hmem : ∀ {c m}, m ∈ w.conns.queued
      (TapHub.fanOut chunk w.hub.ingested w.hub.gapBefore w.hub.taps w.conns).2 c →
      ∃ t ∈ w.hub.taps, t.out = c ∧ m = .data t.id chunk w.hub.ingested w.hub.gapBefore :=
    fun h => TapHub.mem_queued_fanOut _ _ _ h
  rw [length_append] at hb
  refine ⟨?_, ?_, ?_, ?_, ?_, fun c => (hw.received_commit hx c).1,
    fun c => (hw.received_commit hx c).2⟩
  · change wrappingAdd w.hub.ingested chunk.length = (w.stream ++ chunk).length
    rw [hw.ingested, wrappingAdd_of_lt hb, length_append]
  · intro r hr
    change w.hub.ring.map (·.push chunk) = some r at hr
    obtain ⟨r₀, hr₀, rfl⟩ := Option.map_eq_some_iff.mp hr
    change (r₀.push chunk).snapshot = CircularBuffer.newest (r₀.push chunk).cap (w.stream ++ chunk)
    rw [CircularBuffer.snapshot_push, hw.ring r₀ hr₀, CircularBuffer.newest_append_newest,
      CircularBuffer.push_cap]
  · exact hw.taps_nodup.sublist (TapHub.fanOut_ids_sublist chunk _ _ _ _)
  · intro t ht
    change ∃ g, w.grants t.id = some g ∧ g.out = t.out ∧ (g.wasOpen = true →
      Ascending g.answer.fromOffset (dataFor t.id (w.sent t.out ++ w.conns.queued _ t.out))
          (w.stream ++ chunk).length ∧
        holes g.answer.fromOffset (dataFor t.id (w.sent t.out ++ w.conns.queued _ t.out))
          (w.stream ++ chunk).length = t.dropped)
    obtain ⟨t₀, hmem₀, hid, hout, hcase⟩ := TapHub.fanOut_spec chunk _ _ hw.taps_nodup ht
    obtain ⟨g, hg, hgo, htile⟩ := hw.taps_tile t₀ hmem₀
    rw [hid, hout]
    refine ⟨g, hg, hgo, fun hopen => ?_⟩
    obtain ⟨hasc, hholes⟩ := htile hopen
    rw [dataFor_append, length_append]
    rcases hcase with ⟨hdrop, hdata⟩ | ⟨hdrop, hdata⟩
    · rw [hdata, hw.ingested, hdrop]
      exact ⟨hasc.append chunk _, (hasc.holes_append chunk _).trans hholes⟩
    · rw [hdata, append_nil, hdrop]
      exact ⟨hasc.grow _, by rw [hasc.holes_grow, hholes]⟩
  · intro c m hm hg
    rcases mem_append.mp hm with hm | hm
    · exact (hw.sent_exact c m hm hg).append chunk
    · obtain ⟨t, _, _, rfl⟩ := hmem hm
      change Datum.At (w.stream ++ chunk) ⟨chunk, w.hub.ingested, w.hub.gapBefore⟩
      rw [hw.ingested]
      exact Datum.at_end _ _ _

theorem Exact.replayPieces_flatten (hw : w.Exact) (out : Channel TapMsg) (replay : Bool) :
    w.hub.deliverable out replay ≤ w.stream.length ∧
      (w.hub.replayPieces out replay).flatten =
        w.stream.drop (w.stream.length - w.hub.deliverable out replay) := by
  have hret : ∃ n, w.hub.retained replay = CircularBuffer.newest n w.stream := by
    unfold TapHub.retained
    split
    · next ring hr => exact ⟨ring.cap, hw.ring ring hr⟩
    · exact ⟨0, by simp [CircularBuffer.newest]⟩
  obtain ⟨n, hn⟩ := hret
  have hle : w.hub.deliverable out replay ≤ (w.hub.retained replay).length := min_le_left _ _
  constructor
  · rw [hn, CircularBuffer.newest_length] at hle
    omega
  · rw [replayPieces, Chunks.chunks_flatten (by decide), hn,
      CircularBuffer.newest_newest (hn ▸ hle), CircularBuffer.newest]

theorem replayPieces_fit (hub : TapHub) (out : Channel TapMsg) (replay : Bool) :
    (hub.replayPieces out replay).length ≤ out.capacity := by
  refine TapHub.replay_pieces_fit ?_
  rw [CircularBuffer.newest_length]
  exact (min_le_right _ _).trans (min_le_right _ _)

theorem Exact.register_spec (hw : w.Exact) (id : ℕ) (replay : Bool)
    (ho : (w.conns c).out.isOpen = true) :
    let r := w.hub.register w.conns id c 0 replay
    let pieces := w.hub.replayPieces (w.conns c).out replay
    r.1.replayBytes = w.hub.deliverable (w.conns c).out replay ∧
      r.1.fromOffset + r.1.replayBytes = w.stream.length ∧
      r.1.fromOffset + pieces.flatten.length = w.stream.length ∧
      r.2.1.taps = w.hub.taps ++ [⟨id, c, none, 0⟩] ∧
      w.conns.Extends r.2.2 ∧
      ∀ c', w.conns.queued r.2.2 c' =
        if c' = c then pieceMsgs id pieces r.1.fromOffset else [] := by
  obtain ⟨hle, hflat⟩ := hw.replayPieces_flatten (w.conns c).out replay
  obtain ⟨h1, h2, h3, h4⟩ := TapHub.sendPieces_spec id c ho
    (replayPieces_fit w.hub (w.conns c).out replay)
    (w.hub.ingested - w.hub.deliverable (w.conns c).out replay) 0
  have hlen : (w.hub.replayPieces (w.conns c).out replay).flatten.length =
      w.hub.deliverable (w.conns c).out replay := by
    rw [hflat, length_drop]
    omega
  rw [register_eq]
  dsimp only
  refine ⟨h1.trans hlen, ?_, ?_, ?_, h3, h4⟩
  · rw [h1, hlen, hw.ingested]
    omega
  · rw [hlen, hw.ingested]
    omega
  · rw [h2]
    rfl

theorem pieceMsgs_tapId {offset : ℕ} {pieces : List Chunk} {m : TapMsg}
    (h : m ∈ pieceMsgs id pieces offset) : m.tapId = id := by
  induction pieces generalizing offset with
  | nil => cases h
  | cons piece pieces ih =>
    rcases mem_cons.mp h with rfl | h
    · rfl
    · exact ih h

theorem register_of_closed (id : ℕ) (replay : Bool) (ho : (w.conns c).out.isOpen = false) :
    let r := w.hub.register w.conns id c 0 replay
    r.2.1.taps = w.hub.taps ++ [⟨id, c, none, 0⟩] ∧ r.2.2 = w.conns := by
  rw [register_eq]
  dsimp only
  rw [TapHub.sendPieces_of_closed id c ho]
  exact ⟨rfl, rfl⟩

theorem Exact.register_result (hw : w.Exact) (id : ℕ) (c : ConnId) (replay : Bool) :
    let r := w.hub.register w.conns id c 0 replay
    r.2.1.taps = w.hub.taps ++ [⟨id, c, none, 0⟩] ∧ w.conns.Extends r.2.2 ∧
      ∀ c', ∀ m ∈ w.conns.queued r.2.2 c',
        m ∈ pieceMsgs id (w.hub.replayPieces (w.conns c).out replay) r.1.fromOffset := by
  cases ho : (w.conns c).out.isOpen with
  | true =>
    obtain ⟨-, -, -, htaps, hx, hq⟩ := hw.register_spec id replay ho
    refine ⟨htaps, hx, fun c' m hm => ?_⟩
    rw [hq] at hm
    split_ifs at hm
    · exact hm
    · cases hm
  | false =>
    obtain ⟨htaps, hconns⟩ := register_of_closed (w := w) id replay ho
    refine ⟨htaps, by rw [hconns]; exact .refl _, fun c' m hm => ?_⟩
    rw [hconns, Conns.queued_self] at hm
    cases hm

theorem registerTap_exact (hw : w.Exact) (c : ConnId) (replay : Bool) (hid : w.grants id = none)
    (hfresh : ∀ c, ∀ m ∈ w.sent c, m.tapId ≠ id) : (w.registerTap id c replay).Exact := by
  obtain ⟨htaps, hx, hq⟩ := hw.register_result id c replay
  set r := w.hub.register w.conns id c 0 replay with hr
  set pieces := w.hub.replayPieces (w.conns c).out replay
  refine ⟨?_, ?_, ?_, ?_, ?_, fun c => (hw.received_commit hx c).1,
    fun c => (hw.received_commit hx c).2⟩
  · change r.2.1.ingested = w.stream.length
    rw [hr, register_eq]
    exact hw.ingested
  · intro ring hring
    change r.2.1.ring = some ring at hring
    rw [hr, register_eq] at hring
    exact hw.ring ring hring
  · change (r.2.1.taps.map (·.id)).Nodup
    rw [htaps, map_append, map_singleton, nodup_append]
    refine ⟨hw.taps_nodup, nodup_singleton _, ?_⟩
    rintro _ hold _ hnew rfl
    obtain ⟨t, ht, rfl⟩ := mem_map.mp hold
    obtain ⟨g, hg, _⟩ := hw.taps_tile t ht
    rw [mem_singleton.mp hnew, hid] at hg
    cases hg
  · intro t ht
    change t ∈ r.2.1.taps at ht
    change ∃ g, update w.grants id (some ⟨c, (w.conns c).out.isOpen, r.1⟩) t.id = some g ∧
      g.out = t.out ∧ (g.wasOpen = true →
        Ascending g.answer.fromOffset (dataFor t.id (w.sent t.out ++ w.conns.queued r.2.2 t.out))
            w.stream.length ∧
          holes g.answer.fromOffset (dataFor t.id (w.sent t.out ++ w.conns.queued r.2.2 t.out))
            w.stream.length = t.dropped)
    rw [htaps] at ht
    rcases mem_append.mp ht with ht | ht
    · obtain ⟨g, hg, hgo, htile⟩ := hw.taps_tile t ht
      have hne : t.id ≠ id := by
        intro he
        rw [he, hid] at hg
        cases hg
      have hnil : dataFor t.id (w.conns.queued r.2.2 t.out) = [] := by
        refine dataFor_eq_nil fun m hm => ?_
        rw [pieceMsgs_tapId (hq _ m hm)]
        exact hne.symm
      exact ⟨g, by rw [update_of_ne hne, hg], hgo, by
        rw [dataFor_append, hnil, append_nil]; exact htile⟩
    · obtain rfl := mem_singleton.mp ht
      refine ⟨_, update_self .., rfl, fun ho => ?_⟩
      obtain ⟨_, _, hend, _, _, hqc⟩ := hw.register_spec id replay ho
      have hold : dataFor id (w.sent c) = [] := dataFor_eq_nil (hfresh c)
      rw [dataFor_append, hold, nil_append, hqc, if_pos rfl, ← hend]
      exact pieces_tile id pieces _
  · intro c' m hm hg
    change (update w.grants id (some ⟨c, (w.conns c).out.isOpen, r.1⟩) m.tapId).isSome at hg
    rcases mem_append.mp hm with hm | hm
    · rw [update_of_ne (hfresh c' m hm)] at hg
      exact hw.sent_exact c' m hm hg
    · have hpiece := hq c' m hm
      obtain ⟨hle, hflat⟩ := hw.replayPieces_flatten (w.conns c).out replay
      have hfrom : r.1.fromOffset = w.stream.length - w.hub.deliverable (w.conns c).out replay := by
        rw [hr, register_eq, ← hw.ingested]
      rw [hfrom] at hpiece
      exact pieces_at id pieces _ hflat.symm (Nat.sub_le _ _) hpiece

theorem setTerminal_ids (id : ℕ) (c : ConnId) (taps : List Tap) :
    (setTerminal id c taps).map (·.id) = taps.map (·.id) := by
  induction taps with
  | nil => rfl
  | cons t ts ih =>
    rw [setTerminal]
    split_ifs
    · rfl
    · rw [map_cons, ih, map_cons]

theorem mem_setTerminal {taps : List Tap} {t : Tap} (h : t ∈ setTerminal id c taps) :
    ∃ t' ∈ taps, t'.id = t.id ∧ t'.out = t.out ∧ t'.dropped = t.dropped := by
  induction taps with
  | nil => cases h
  | cons t₀ ts ih =>
    rw [setTerminal] at h
    split_ifs at h
    · rcases mem_cons.mp h with rfl | h
      · exact ⟨t₀, mem_cons_self, rfl, rfl, rfl⟩
      · exact ⟨t, mem_cons_of_mem _ h, rfl, rfl, rfl⟩
    · rcases mem_cons.mp h with rfl | h
      · exact ⟨t, mem_cons_self, rfl, rfl, rfl⟩
      · obtain ⟨t', ht', hrest⟩ := ih h
        exact ⟨t', mem_cons_of_mem _ ht', hrest⟩

theorem mirror_same (h : TapHub) (feed : Channel Chunk) (chunk : Chunk) :
    (h.mirror feed chunk).1.ingested = h.ingested ∧ (h.mirror feed chunk).1.ring = h.ring ∧
      (h.mirror feed chunk).1.taps = h.taps := by
  unfold TapHub.mirror TapHub.carry
  split_ifs
  · split <;> exact ⟨rfl, rfl, rfl⟩
  · exact ⟨rfl, rfl, rfl⟩

theorem armWait_same (h : TapHub) (id : ℕ) (m : Matcher) (lookback context : ℕ) (replay : Bool) :
    (h.armWait id m lookback context replay).2.ingested = h.ingested ∧
      (h.armWait id m lookback context replay).2.ring = h.ring ∧
      (h.armWait id m lookback context replay).2.taps = h.taps := by
  unfold TapHub.armWait
  split_ifs
  · exact ⟨rfl, rfl, rfl⟩
  · dsimp only
    split <;> exact ⟨rfl, rfl, rfl⟩

theorem disarm_same (h : TapHub) (id : ℕ) :
    (h.disarm id).2.ingested = h.ingested ∧ (h.disarm id).2.ring = h.ring ∧
      (h.disarm id).2.taps = h.taps := by
  unfold TapHub.disarm
  split <;> exact ⟨rfl, rfl, rfl⟩

theorem close_exact (hw : w.Exact) (id : ℕ) : Exact { w with hub := w.hub.close id } := by
  refine hw.of_hub rfl (fun _ h => h) ?_ ?_
  · exact hw.taps_nodup.sublist (filter_sublist.map _)
  · intro t ht
    exact ⟨t, mem_of_mem_filter ht, rfl, rfl, rfl⟩

theorem detach_exact (hw : w.Exact) (reason : TapCloseReason) : (w.detach reason).Exact := by
  have hx := TapHub.closeTaps_extends w.hub.endpoint reason.asStr w.hub.taps w.conns
  refine ⟨hw.ingested, fun _ hr => (by cases hr), nodup_nil, fun _ ht => (by cases ht), ?_,
    fun c => (hw.received_commit hx c).1, fun c => (hw.received_commit hx c).2⟩
  intro c m hm hg
  rcases mem_append.mp hm with hm | hm
  · exact hw.sent_exact c m hm hg
  · obtain ⟨id, rfl⟩ := TapHub.mem_queued_closeTaps hm
    trivial

theorem foreign_exact (hw : w.Exact) (c : ConnId) {msg : TapMsg} (hm : w.grants msg.tapId = none) :
    (w.commit w.hub (w.conns.trySend c msg).2).Exact := by
  have hx := w.conns.trySend_extends c msg
  have hq : ∀ c', ∀ m ∈ w.conns.queued (w.conns.trySend c msg).2 c', m = msg := by
    intro c' m hmem
    rw [Conns.queued_trySend] at hmem
    split_ifs at hmem
    · exact mem_singleton.mp hmem
    · cases hmem
  refine ⟨hw.ingested, hw.ring, hw.taps_nodup, ?_, ?_,
    fun c => (hw.received_commit hx c).1, fun c => (hw.received_commit hx c).2⟩
  · intro t ht
    obtain ⟨g, hg, hgo, htile⟩ := hw.taps_tile t ht
    have hnil : dataFor t.id (w.conns.queued (w.conns.trySend c msg).2 t.out) = [] := by
      refine dataFor_eq_nil fun m hmem he => ?_
      rw [hq _ m hmem] at he
      rw [he, hg] at hm
      cases hm
    refine ⟨g, hg, hgo, ?_⟩
    change g.wasOpen = true →
      Ascending _ (dataFor t.id (w.sent t.out ++ w.conns.queued _ t.out)) _ ∧
        holes _ (dataFor t.id (w.sent t.out ++ w.conns.queued _ t.out)) _ = t.dropped
    rw [dataFor_append, hnil, append_nil]
    exact htile
  · intro c' m hmem hg
    rcases mem_append.mp hmem with hmem | hmem
    · exact hw.sent_exact c' m hmem hg
    · rw [hq c' m hmem] at hg
      change (w.grants msg.tapId).isSome at hg
      simp [hm] at hg

theorem receiveOn_exact (hw : w.Exact) (c : ConnId) : (w.receiveOn c).Exact := by
  have hrecv := (w.conns c).out.recv_queue
  unfold receiveOn
  split
  · next msg out he =>
    rw [he] at hrecv
    have hpre : w.received c ++ [msg] <+: w.sent c ∧
        ((w.conns c).out.isOpen = true → w.received c ++ [msg] ++ out.queue = w.sent c) := by
      have hopen : (w.conns c).out.isOpen = true := by
        by_contra hc
        have hnil := (w.conns c).out.drained (by simpa using hc)
        rw [hnil] at hrecv
        simp at hrecv
      have := hw.received_queue c hopen
      rw [← hrecv, Option.toList_some, ← append_assoc] at this
      exact ⟨⟨_, this⟩, fun _ => this⟩
    have hio : out.isOpen = (w.conns c).out.isOpen := by
      have := (w.conns c).out.recv_isOpen
      rwa [he] at this
    refine ⟨hw.ingested, hw.ring, hw.taps_nodup, hw.taps_tile, hw.sent_exact, ?_, ?_⟩
    · intro c'
      by_cases hc : c' = c
      · subst hc
        simpa using hpre.1
      · simpa [hc] using hw.received_prefix c'
    · intro c'
      by_cases hc : c' = c
      · subst hc
        simpa [hio] using hpre.2
      · simpa [hc] using hw.received_queue c'
  · exact hw

theorem hangUpOn_exact (hw : w.Exact) (c : ConnId) : (w.hangUpOn c).Exact := by
  refine ⟨hw.ingested, hw.ring, hw.taps_nodup, hw.taps_tile, hw.sent_exact, hw.received_prefix, ?_⟩
  intro c'
  by_cases hc : c' = c
  · subst hc
    simp [hangUpOn]
  · simpa [hangUpOn, hc] using hw.received_queue c'

theorem step_exact (hw : w.Exact) (a : TapAct) (ha : w.Allowed a)
    (hb : (w.step a).stream.length < u64Size) : (w.step a).Exact := by
  cases a with
  | mirror chunk =>
    obtain ⟨h1, h2, h3⟩ := mirror_same w.hub w.feed chunk
    exact (hw.of_same h1 h2 h3).of_feed _
  | skipped n => exact hw.of_same rfl rfl rfl
  | drain =>
    change (drainFeed w).stream.length < u64Size at hb
    change (drainFeed w).Exact
    unfold drainFeed at hb ⊢
    split at hb
    · next chunk feed he => exact ingestChunk_exact (hw.of_feed feed) chunk hb
    · exact hw
  | ingest chunk => exact ingestChunk_exact hw chunk hb
  | register id c replay => exact registerTap_exact hw c replay ha.1 ha.2
  | attachTerminal id c =>
    refine hw.of_hub rfl (fun _ h => h) ?_ fun t ht => mem_setTerminal ht
    change ((setTerminal id c w.hub.taps).map (·.id)).Nodup
    rw [setTerminal_ids]
    exact hw.taps_nodup
  | close id => exact close_exact hw id
  | armWait id m lookback context replay =>
    obtain ⟨h1, h2, h3⟩ := armWait_same w.hub id m lookback context replay
    exact hw.of_same h1 h2 h3
  | disarm id =>
    obtain ⟨h1, h2, h3⟩ := disarm_same w.hub id
    exact hw.of_same h1 h2 h3
  | detachAll reason => exact detach_exact hw reason
  | receive c => exact receiveOn_exact hw c
  | foreign c msg => exact foreign_exact hw c ha
  | hangUp c => exact hangUpOn_exact hw c

end steps

theorem start_exact (endpoint : String) (ringCap epoch feedCap : ℕ) (conns : Conns) :
    (start endpoint ringCap epoch feedCap conns).Exact where
  ingested := rfl
  ring r hr := by
    change (if ringCap > 0 then some (CircularBuffer.new ringCap) else none) = some r at hr
    split_ifs at hr
    obtain rfl := Option.some.inj hr
    simp [CircularBuffer.new, CircularBuffer.snapshot, CircularBuffer.newest, start]
  taps_nodup := nodup_nil
  taps_tile _ ht := by cases ht
  sent_exact _ _ _ hg := by cases hg
  received_prefix _ := nil_prefix
  received_queue _ _ := rfl

theorem stream_length_le_step (w : TapWorld) (a : TapAct) :
    w.stream.length ≤ (w.step a).stream.length := by
  have hingest : ∀ (w : TapWorld) (chunk : Chunk),
      w.stream.length ≤ (w.ingestChunk chunk).stream.length := by
    intro w chunk
    change w.stream.length ≤ (w.stream ++ chunk).length
    rw [length_append]
    exact Nat.le_add_right _ _
  cases a with
  | drain =>
    change w.stream.length ≤ w.drainFeed.stream.length
    unfold drainFeed
    split
    · next chunk feed _ => exact hingest { w with feed } chunk
    · exact le_rfl
  | ingest chunk => exact hingest w chunk
  | receive c =>
    change w.stream.length ≤ (w.receiveOn c).stream.length
    unfold receiveOn
    split <;> exact le_rfl
  | mirror | skipped | register | attachTerminal | close | armWait | disarm | detachAll | foreign
  | hangUp => exact le_rfl

theorem Reachable.exact {endpoint : String} {ringCap epoch feedCap : ℕ} {conns : Conns} {w : TapWorld}
    (h : machine.Reachable (start endpoint ringCap epoch feedCap conns) w)
    (hb : w.stream.length < u64Size) : w.Exact := by
  refine h.invariant (I := fun w => w.stream.length < u64Size → w.Exact)
    (fun _ => start_exact _ _ _ _ _) ?_ hb
  intro w a hw ha hb
  exact step_exact (hw ((w.stream_length_le_step a).trans_lt hb)) a ha hb

structure Replayed (w : TapWorld) (id : ℕ) (c : ConnId) (replay : Bool) : Prop where
  never_full : ∀ pre piece post,
    w.hub.replayPieces (w.conns c).out replay = pre ++ piece :: post → ∀ msg,
      ((TapHub.sendPieces id c pre (w.hub.register w.conns id c 0 replay).1.fromOffset 0
        w.conns).2.2.trySend c msg).1 ≠ .full
  splice : (w.conns c).out.isOpen = true →
    (w.hub.register w.conns id c 0 replay).1.fromOffset +
      (w.hub.register w.conns id c 0 replay).1.replayBytes = w.stream.length
  truncated : (w.conns c).out.isOpen = true →
    (w.hub.register w.conns id c 0 replay).1.replayTruncated +
      (w.hub.register w.conns id c 0 replay).1.replayBytes = (w.hub.retained replay).length
  newest : (w.conns c).out.isOpen = true →
    ((dataFor id (w.conns.queued (w.hub.register w.conns id c 0 replay).2.2 c)).map
      (·.bytes)).flatten =
    CircularBuffer.newest (w.hub.register w.conns id c 0 replay).1.replayBytes
      (w.hub.retained replay)

theorem pieceMsgs_bytes (id : ℕ) (pieces : List Chunk) (offset : ℕ) :
    (dataFor id (pieceMsgs id pieces offset)).map (·.bytes) = pieces := by
  induction pieces generalizing offset with
  | nil => rfl
  | cons piece pieces ih =>
    have := ih (offset + piece.length)
    simpa [pieceMsgs, dataFor, TapMsg.datumFor] using this

theorem Exact.replayed {w : TapWorld} (hw : w.Exact) (id : ℕ) (c : ConnId) (replay : Bool) :
    w.Replayed id c replay where
  never_full pre piece post hpieces msg := by
    cases ho : (w.conns c).out.isOpen with
    | true =>
      have hfit := replayPieces_fit w.hub (w.conns c).out replay
      rw [hpieces] at hfit
      rw [TapHub.sendPieces_not_full id c ho hfit]
      simp
    | false =>
      rw [TapHub.sendPieces_of_closed id c ho]
      rcases Conns.trySend_cases w.conns c msg with ⟨h, _⟩ | ⟨h, _⟩ | ⟨_, h, _⟩
      · simp [ho] at h
      · simp [ho] at h
      · simp [h]
  splice ho := (hw.register_spec id replay ho).2.1
  truncated ho := by
    rw [(hw.register_spec id replay ho).1, register_eq]
    exact Nat.sub_add_cancel (min_le_left _ _)
  newest ho := by
    obtain ⟨hbytes, _, _, _, _, hq⟩ := hw.register_spec id replay ho
    rw [hq, if_pos rfl, pieceMsgs_bytes, hbytes, replayPieces, Chunks.chunks_flatten (by decide)]

theorem tap_stream_exact (endpoint : String) (ringCap epoch feedCap : ℕ) (conns : Conns)
    (w : TapWorld) (h : machine.Reachable (start endpoint ringCap epoch feedCap conns) w)
    (hb : w.stream.length < u64Size) :
    (∀ c, w.received c <+: w.sent c) ∧
    (∀ c, ∀ m ∈ w.sent c, (w.grants m.tapId).isSome → m.ExactIn w.stream) ∧
    (∀ r, w.hub.ring = some r → r.snapshot = CircularBuffer.newest r.cap w.stream) ∧
    (∀ id c replay, w.Replayed id c replay) ∧
    ∀ t ∈ w.hub.taps, ∃ g, w.grants t.id = some g ∧ g.out = t.out ∧ (g.wasOpen = true →
      (∀ d ∈ dataFor t.id (w.sent t.out), g.answer.fromOffset ≤ d.offset) ∧
      (dataFor t.id (w.sent t.out)).Pairwise (fun d e => d.bytes ≠ [] → d.offset < e.offset) ∧
      Ascending g.answer.fromOffset (dataFor t.id (w.sent t.out)) w.stream.length ∧
      holes g.answer.fromOffset (dataFor t.id (w.sent t.out)) w.hub.ingested = t.dropped) := by
  have hw := Reachable.exact h hb
  refine ⟨hw.received_prefix, hw.sent_exact, hw.ring, hw.replayed, ?_⟩
  intro t ht
  obtain ⟨g, hg, hgo, htile⟩ := hw.taps_tile t ht
  refine ⟨g, hg, hgo, fun hopen => ?_⟩
  obtain ⟨hasc, hholes⟩ := htile hopen
  exact ⟨hasc.pairwise.1, hasc.pairwise.2, hasc, by rw [hw.ingested, hholes]⟩

def oneSlot : Conns := fun _ => ⟨Channel.new 1, []⟩

def seamRun : List TapAct :=
  [.ingest [1, 2, 3], .ingest [4, 5, 6], .register 7 0 true, .ingest [8, 9], .receive 0]

def seamWorld : TapWorld := machine.run (start "usb0" 4 1 256 oneSlot) seamRun

theorem seamWorld_reachable : machine.Reachable (start "usb0" 4 1 256 oneSlot) seamWorld :=
  ⟨seamRun, .cons trivial (.cons trivial (.cons ⟨rfl, fun _ _ hm => by cases hm⟩
    (.cons trivial (.cons trivial trivial)))), rfl⟩

theorem tap_stream_exact_seam :
    seamWorld.stream.length < u64Size ∧ seamWorld.received 0 = [.data 7 [3, 4, 5, 6] 2 0] ∧
      (∀ c, ∀ m ∈ seamWorld.sent c, (seamWorld.grants m.tapId).isSome →
        m.ExactIn seamWorld.stream) ∧
      seamWorld.hub.taps = [⟨7, 0, none, 2⟩] :=
  ⟨by decide, by decide,
    (tap_stream_exact "usb0" 4 1 256 oneSlot seamWorld seamWorld_reachable (by decide)).2.1,
    by decide⟩

def sharedSlotRun : List TapAct :=
  [.register 1 0 false, .register 2 0 false, .ingest [10], .receive 0, .close 1, .ingest [11]]

def sharedSlotWorld : TapWorld := machine.run (start "usb0" 0 1 256 oneSlot) sharedSlotRun

def holesFromFirst (ds : List Datum) (upto : ℕ) : ℕ :=
  match ds with
  | [] => 0
  | d :: _ => holes d.offset ds upto

theorem first_message_after_hole :
    machine.Reachable (start "usb0" 0 1 256 oneSlot) sharedSlotWorld ∧
      sharedSlotWorld.hub.taps = [⟨2, 0, none, 1⟩] ∧
      (sharedSlotWorld.grants 2).map (fun g => (g.wasOpen, g.answer.fromOffset)) = some (true, 0) ∧
      dataFor 2 (sharedSlotWorld.sent 0) = [⟨[11], 1, 0⟩] ∧
      holesFromFirst (dataFor 2 (sharedSlotWorld.sent 0)) sharedSlotWorld.hub.ingested = 0 := by
  refine ⟨⟨sharedSlotRun, ?_, rfl⟩, by decide, by decide, by decide, by decide⟩
  exact .cons ⟨rfl, fun _ _ hm => by cases hm⟩ (.cons ⟨rfl, fun _ _ hm => by cases hm⟩
    (.cons trivial (.cons trivial (.cons trivial (.cons trivial trivial)))))

end TapWorld
end SerialNexus
