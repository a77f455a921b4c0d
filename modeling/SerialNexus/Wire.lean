import SerialNexus.Chunks
import SerialNexus.Envelope

/-! # The wire of a leg

One direction of a leg connection (`runtime.rs`, `leg.rs`): the sender writes its hello and then
each chunk, cut into envelope frames; the receiver reads until it has the hello, hands the rest to a
`FrameDecoder`, and routes every event it decodes. -/

namespace SerialNexus

open List Framing

def framePayloadCap (channel : String) : ℕ := max (maxFrameSize - (3 + (utf8 channel).length)) 1

def rangesFrom (cap total : ℕ) : ℕ → ℕ → List (ℕ × ℕ)
  | 0, _ => []
  | fuel + 1, off =>
    if off ≥ total then []
    else (off, min (off + cap) total) :: rangesFrom cap total fuel (min (off + cap) total)

def frameRanges (channel : String) (total : ℕ) : List (ℕ × ℕ) :=
  rangesFrom (framePayloadCap channel) total total 0

inductive DataFrame where
  | piece (payloadLen : ℕ) (frame : List UInt8)
  | residual (bytes : ℕ)
deriving DecidableEq, Repr

def framesOf (channel : String) (bytes : Chunk) : List (ℕ × ℕ) → List DataFrame
  | [] => []
  | (off, fin) :: ranges =>
    match encode ⟨channel, .data ((bytes.take fin).drop off)⟩ [] with
    | .error _ => [.residual (bytes.length - off)]
    | .ok frame => .piece (fin - off) frame :: framesOf channel bytes ranges

def dataFrames (channel : String) (bytes : Chunk) : List DataFrame :=
  framesOf channel bytes (frameRanges channel bytes.length)

def DataFrame.onWire : DataFrame → List UInt8
  | .piece _ frame => frame
  | .residual _ => []

def DataFrame.sourceBytes : DataFrame → ℕ
  | .piece payloadLen _ => payloadLen
  | .residual bytes => bytes

def written (sent : List (String × Chunk)) : List UInt8 :=
  sent.flatMap fun p => (dataFrames p.1 p.2).flatMap DataFrame.onWire

def ourHello (channels : List String) : Hello := ⟨wireVersion, 0, channels⟩

def helloFrame (channels : List String) : Except String (List UInt8) :=
  (encodeHello (ourHello channels) []).mapError fun e => "encode hello: " ++ e.display

inductive PumpEnd where
  | peerGone
  | protocol (reason : String)
deriving DecidableEq, Repr

def readHello (reads : List (List UInt8)) :
    Except String (Hello × List UInt8 × List (List UInt8)) :=
  takeOne (fun buf => (tryDecodeHello buf).mapError WireError.display)
    "peer closed before sending a hello" [] reads

def drainEvents : ℕ → FrameDecoder → List Event × Except EnvelopeError FrameDecoder
  | 0, d => ([], .ok d)
  | fuel + 1, d =>
    match d.nextEvent with
    | (.error e, _) => ([], .error e)
    | (.ok none, d) => ([], .ok d)
    | (.ok (some event), d) =>
      let (events, rest) := drainEvents fuel d
      (event :: events, rest)

def readHalf : FrameDecoder → List (List UInt8) → List Event × PumpEnd
  | d, [] =>
    match drainEvents d.live.length d with
    | (events, .error e) => (events, .protocol e.display)
    | (events, .ok _) => (events, .peerGone)
  | d, read :: reads =>
    match drainEvents d.live.length d with
    | (events, .error e) => (events, .protocol e.display)
    | (events, .ok d) =>
      if read.isEmpty then (events, .peerGone)
      else
        let (events', fin) := readHalf (d.push read) reads
        (events ++ events', fin)

def receive (reads : List (List UInt8)) : Except String (Hello × List Event × PumpEnd) :=
  match readHello reads with
  | .error reason => .error reason
  | .ok (hello, leftover, reads) =>
    let (events, fin) := readHalf (FrameDecoder.new.push leftover) reads
    .ok (hello, events, fin)

def routed (channel : String) (events : List Event) : List UInt8 :=
  events.flatMap fun e =>
    match e.kind with
    | .data bytes => if e.channel = channel then bytes else []
    | _ => []

def sentOn (channel : String) (sent : List (String × Chunk)) : List UInt8 :=
  sent.flatMap fun p => if p.1 = channel then p.2 else []

theorem framePayloadCap_pos (channel : String) : 0 < framePayloadCap channel := by
  unfold framePayloadCap
  omega

variable {cap fuel off : ℕ} {channel : String} {bytes : Chunk} {sent : List (String × Chunk)}
  {channels : List String}

theorem rangesFrom_slices (hcap : 0 < cap) (bytes : Chunk) (hfuel : bytes.length - off ≤ fuel) :
    (rangesFrom cap bytes.length fuel off).map (fun r => (bytes.take r.2).drop r.1) =
      Chunks.chunks cap (bytes.drop off) := by
  induction fuel generalizing off with
  | zero =>
    rw [rangesFrom, drop_of_length_le (by omega)]
    rfl
  | succ fuel ih =>
    rw [rangesFrom]
    split_ifs with hoff
    · rw [drop_of_length_le hoff]
      rfl
    · have hne : bytes.drop off ≠ [] := by
        intro h
        rw [drop_eq_nil_iff] at h
        omega
      rw [Chunks.chunks_of_ne_nil hcap hne, map_cons, ih (by omega), drop_drop]
      congr 1
      · rw [drop_take]
        by_cases hle : off + cap ≤ bytes.length
        · rw [min_eq_left hle, Nat.add_sub_cancel_left]
        · rw [min_eq_right (by omega), take_of_length_le (by rw [length_drop]),
            take_of_length_le (by rw [length_drop]; omega)]
      · by_cases hle : off + cap ≤ bytes.length
        · rw [min_eq_left hle]
        · rw [min_eq_right (by omega), drop_length,
            drop_of_length_le (show bytes.length ≤ off + cap by omega)]

theorem framesOf_sourceBytes (channel : String) (hcap : 0 < cap) (bytes : Chunk)
    (hfuel : bytes.length - off ≤ fuel) :
    ((framesOf channel bytes (rangesFrom cap bytes.length fuel off)).map
      DataFrame.sourceBytes).sum = bytes.length - off := by
  induction fuel generalizing off with
  | zero =>
    rw [rangesFrom, framesOf, show bytes.length - off = 0 by omega]
    rfl
  | succ fuel ih =>
    rw [rangesFrom]
    split_ifs with hoff
    · rw [framesOf, show bytes.length - off = 0 by omega]
      rfl
    · rw [framesOf]
      split
      · simp [DataFrame.sourceBytes]
      · rw [map_cons, sum_cons, ih (by omega), DataFrame.sourceBytes]
        omega

theorem dataFrames_sourceBytes (channel : String) (bytes : Chunk) :
    ((dataFrames channel bytes).map DataFrame.sourceBytes).sum = bytes.length :=
  framesOf_sourceBytes channel (framePayloadCap_pos channel) bytes (Nat.sub_le bytes.length 0)

def chunkEvents (channel : String) (bytes : Chunk) : List Event :=
  (Chunks.chunks (framePayloadCap channel) bytes).map fun piece => ⟨channel, .data piece⟩

theorem encode_piece (hname : (utf8 channel).length ≤ maxNameLen) {piece : Chunk}
    (hpiece : piece.length ≤ framePayloadCap channel) :
    ∃ frame, encode ⟨channel, .data piece⟩ [] = .ok frame := by
  unfold maxNameLen at hname
  unfold framePayloadCap maxFrameSize at hpiece
  unfold encode
  rw [if_neg (by simp only [EventKind.payload, maxFrameSize]; omega), if_neg (by dsimp only; omega)]
  exact ⟨_, rfl⟩

def Framed (events : List Event) (frames : List (List UInt8 × Event)) : Prop :=
  frames.map Prod.snd = events ∧ ∀ f ∈ frames, encode f.2 [] = .ok f.1

def NoResidual (items : List DataFrame) (frames : List (List UInt8 × Event)) : Prop :=
  ∀ item ∈ items, ∃ n, ∃ f ∈ frames, item = .piece n f.1

theorem framesOf_slices {ranges : List (ℕ × ℕ)} (h : ∀ r ∈ ranges,
      ∃ frame, encode ⟨channel, .data ((bytes.take r.2).drop r.1)⟩ [] = .ok frame) :
    ∃ frames, Framed (ranges.map fun r => ⟨channel, .data ((bytes.take r.2).drop r.1)⟩) frames ∧
      (framesOf channel bytes ranges).flatMap DataFrame.onWire = (frames.map Prod.fst).flatten ∧
      NoResidual (framesOf channel bytes ranges) frames := by
  induction ranges with
  | nil => exact ⟨[], ⟨rfl, by simp⟩, rfl, by simp [framesOf, NoResidual]⟩
  | cons r ranges ih =>
    obtain ⟨frame, hframe⟩ := h r mem_cons_self
    obtain ⟨frames, ⟨hsnd, henc⟩, hwire, hno⟩ := ih fun r' hr' => h r' (mem_cons_of_mem _ hr')
    refine ⟨(frame, ⟨channel, .data ((bytes.take r.2).drop r.1)⟩) :: frames, ⟨?_, ?_⟩, ?_, ?_⟩
    · rw [map_cons, map_cons, hsnd]
    · intro f hf
      rcases mem_cons.mp hf with rfl | hf
      · exact hframe
      · exact henc f hf
    · rw [framesOf, hframe]
      simp only [flatMap_cons, hwire, map_cons, flatten_cons, DataFrame.onWire]
    · rw [framesOf, hframe]
      intro item hitem
      rcases mem_cons.mp hitem with rfl | hitem
      · exact ⟨_, _, mem_cons_self, rfl⟩
      · obtain ⟨n, f, hf, rfl⟩ := hno item hitem
        exact ⟨n, f, mem_cons_of_mem _ hf, rfl⟩

theorem frameRanges_slices (channel : String) (bytes : Chunk) :
    (frameRanges channel bytes.length).map (fun r => (bytes.take r.2).drop r.1) =
      Chunks.chunks (framePayloadCap channel) bytes := by
  have := rangesFrom_slices (framePayloadCap_pos channel) bytes (Nat.sub_le bytes.length 0)
  rwa [drop_zero] at this

theorem slice_mem_chunks {r : ℕ × ℕ} (hr : r ∈ frameRanges channel bytes.length) :
    (bytes.take r.2).drop r.1 ∈ Chunks.chunks (framePayloadCap channel) bytes :=
  frameRanges_slices channel bytes ▸ mem_map.mpr ⟨r, hr, rfl⟩

theorem chunkEvents_eq_ranges (channel : String) (bytes : Chunk) :
    chunkEvents channel bytes = (frameRanges channel bytes.length).map
      fun r => ⟨channel, .data ((bytes.take r.2).drop r.1)⟩ := by
  rw [chunkEvents, ← frameRanges_slices, map_map]
  rfl

theorem dataFrames_spec (hname : (utf8 channel).length ≤ maxNameLen) (bytes : Chunk) :
    ∃ frames, Framed (chunkEvents channel bytes) frames ∧
      (dataFrames channel bytes).flatMap DataFrame.onWire = (frames.map Prod.fst).flatten ∧
      NoResidual (dataFrames channel bytes) frames := by
  rw [chunkEvents_eq_ranges]
  refine framesOf_slices fun r hr => encode_piece hname ?_
  exact Chunks.length_le_of_mem_chunks (framePayloadCap_pos channel) (slice_mem_chunks hr)

def sentEvents (sent : List (String × Chunk)) : List Event :=
  sent.flatMap fun p => chunkEvents p.1 p.2

theorem written_spec (hname : ∀ p ∈ sent, (utf8 p.1).length ≤ maxNameLen) :
    ∃ frames, Framed (sentEvents sent) frames ∧ written sent = (frames.map Prod.fst).flatten := by
  induction sent with
  | nil => exact ⟨[], ⟨rfl, by simp⟩, rfl⟩
  | cons p sent ih =>
    obtain ⟨frames, ⟨hsnd, henc⟩, hwire, -⟩ := dataFrames_spec (hname p mem_cons_self) p.2
    obtain ⟨frames', ⟨hsnd', henc'⟩, hwire'⟩ := ih fun q hq => hname q (mem_cons_of_mem _ hq)
    refine ⟨frames ++ frames', ⟨?_, ?_⟩, ?_⟩
    · rw [map_append, hsnd, hsnd']
      rfl
    · intro f hf
      exact (mem_append.mp hf).elim (henc f) (henc' f)
    · rw [map_append, flatten_append, ← hwire, ← hwire']
      rfl

theorem routed_append (channel : String) (as bs : List Event) :
    routed channel (as ++ bs) = routed channel as ++ routed channel bs := flatMap_append

theorem routed_chunkEvents (channel ch : String) (bytes : Chunk) :
    routed channel (chunkEvents ch bytes) = if ch = channel then bytes else [] := by
  have hflat := Chunks.chunks_flatten (framePayloadCap_pos ch) bytes
  unfold routed chunkEvents
  rw [flatMap_map]
  dsimp only
  split_ifs with h
  · rw [flatMap_def, map_id', hflat]
  · simp

theorem routed_sentEvents (channel : String) (sent : List (String × Chunk)) :
    routed channel (sentEvents sent) = sentOn channel sent := by
  induction sent with
  | nil => rfl
  | cons p sent ih =>
    rw [sentEvents, flatMap_cons, routed_append, routed_chunkEvents]
    exact congrArg _ ih

theorem drainEvents_decodeAll (fuel : ℕ) (d : FrameDecoder) :
    (drainEvents fuel d).1 = (decodeAll tryDecode fuel d.live).1 ∧
      (drainEvents fuel d).2.map FrameDecoder.live = (decodeAll tryDecode fuel d.live).2 := by
  induction fuel generalizing d with
  | zero => exact ⟨rfl, rfl⟩
  | succ fuel ih =>
    cases h : tryDecode d.live with
    | error e =>
      rw [drainEvents, FrameDecoder.nextEvent_error h, decodeAll, h]
      exact ⟨rfl, rfl⟩
    | ok found =>
      cases found with
      | none =>
        rw [drainEvents, FrameDecoder.nextEvent_none h, decodeAll, h]
        exact ⟨rfl, rfl⟩
      | some r =>
        obtain ⟨event, n⟩ := r
        obtain ⟨hres, hlive⟩ := FrameDecoder.nextEvent_some h
        obtain ⟨h1, h2⟩ := ih d.nextEvent.2
        rw [hlive] at h1 h2
        rw [drainEvents, ← Prod.mk.eta (p := d.nextEvent), hres, decodeAll, h]
        exact ⟨congrArg _ h1, h2⟩

def pumpEnd : Except EnvelopeError (List UInt8) → PumpEnd
  | .error e => .protocol e.display
  | .ok _ => .peerGone

theorem readHalf_feed (d : FrameDecoder) (reads : List (List UInt8)) :
    readHalf d reads =
      ((feed tryDecode d.live reads).1, pumpEnd (feed tryDecode d.live reads).2) := by
  induction reads generalizing d with
  | nil =>
    obtain ⟨h1, h2⟩ := drainEvents_decodeAll d.live.length d
    rw [readHalf, feed, ← h1, ← h2]
    rcases drainEvents d.live.length d with ⟨events, _ | d'⟩ <;> rfl
  | cons read reads ih =>
    obtain ⟨h1, h2⟩ := drainEvents_decodeAll d.live.length d
    rw [readHalf, feed, ← Prod.mk.eta (p := decodeAll tryDecode d.live.length d.live), ← h1, ← h2]
    rcases drainEvents d.live.length d with ⟨events, e | d'⟩
    · rfl
    · simp only [Except.map]
      split_ifs with hread
      · rfl
      · rw [ih, FrameDecoder.push_live]

theorem helloFrame_ok_iff (hname : ∀ ch ∈ channels, (utf8 ch).length ≤ maxNameLen) :
    (∃ frame, helloFrame channels = .ok frame) ↔ helloBodyLen channels ≤ maxFrameSize := by
  have hsize : oversizeId channels = none := by
    rw [oversizeId, find?_eq_none]
    intro n hn
    obtain ⟨ch, hch, rfl⟩ := mem_map.mp hn
    have := hname ch hch
    unfold maxNameLen at this
    simp only [decide_eq_true_eq]
    omega
  unfold helloFrame encodeHello ourHello
  dsimp only
  rw [hsize]
  constructor
  · rintro ⟨frame, h⟩
    by_contra hlen
    rw [if_pos (by omega)] at h
    cases h
  · intro hlen
    have := helloBodyLen_ge channels
    rw [if_neg (by omega), if_neg (by unfold maxFrameSize at hlen; omega)]
    exact ⟨_, rfl⟩

theorem helloFrame_frame {frame : List UInt8} (h : helloFrame channels = .ok frame) :
    Frame tryDecodeHello frame (ourHello channels) := by
  unfold helloFrame at h
  cases he : encodeHello (ourHello channels) [] with
  | error e => rw [he] at h; cases h
  | ok frame' =>
    rw [he] at h
    obtain rfl : frame' = frame := Except.ok.inj h
    exact encodeHello_frame rfl (Nat.two_pow_pos 32) he

theorem dataFrames_bounded (hname : (utf8 channel).length ≤ maxNameLen) (bytes : Chunk) :
    ∀ item ∈ dataFrames channel bytes,
      ∃ n frame, item = .piece n frame ∧ frame.length ≤ prefixLen + maxFrameSize := by
  obtain ⟨frames, ⟨-, henc⟩, -, hno⟩ := dataFrames_spec hname bytes
  intro item hitem
  obtain ⟨n, f, hf, rfl⟩ := hno item hitem
  exact ⟨n, f.1, rfl, (encode_frame (henc f hf)).2⟩

theorem receive_written (hname : ∀ p ∈ sent, (utf8 p.1).length ≤ maxNameLen) {hello : List UInt8}
    (hhello : helloFrame channels = .ok hello) {reads : List (List UInt8)}
    (hne : ∀ r ∈ reads, r ≠ []) (hreads : reads.flatten = hello ++ written sent) :
    receive reads = .ok (ourHello channels, sentEvents sent, .peerGone) := by
  obtain ⟨frames, ⟨hsnd, henc⟩, hwritten⟩ := written_spec hname
  obtain ⟨leftover, reads', htake, hne', hrest⟩ :=
    takeOne_frame "peer closed before sending a hello"
      ((helloFrame_frame hhello).mapError WireError.display) hne
      (show [] ++ reads.flatten = hello ++ written sent from hreads)
  have hfeed : feed tryDecode leftover reads' = (sentEvents sent, .ok []) := by
    rw [← hsnd]
    exact feed_frames lengthPrefixed_nil (fun f hf => (encode_frame (henc f hf)).1) hne'
      (hrest.trans hwritten)
  have hlive : (FrameDecoder.new.push leftover).live = leftover := by simp
  unfold receive
  rw [readHello, htake]
  dsimp only
  rw [readHalf_feed, hlive, hfeed]
  rfl

theorem wire_transparent (channels : List String)
    (hname : ∀ ch ∈ channels, (utf8 ch).length ≤ maxNameLen)
    (sent : List (String × Chunk)) (hbound : ∀ p ∈ sent, p.1 ∈ channels) :
    ((∃ hello, helloFrame channels = .ok hello) ↔ helloBodyLen channels ≤ maxFrameSize) ∧
    (∀ hello, helloFrame channels = .ok hello →
      ∀ reads : List (List UInt8), (∀ r ∈ reads, r ≠ []) → reads.flatten = hello ++ written sent →
        ∃ events, receive reads = .ok (ourHello channels, events, .peerGone) ∧
          ∀ ch, routed ch events = sentOn ch sent) ∧
    ∀ p ∈ sent, ∀ item ∈ dataFrames p.1 p.2,
      ∃ n frame, item = .piece n frame ∧ frame.length ≤ prefixLen + maxFrameSize := by
  have hsent : ∀ p ∈ sent, (utf8 p.1).length ≤ maxNameLen := fun p hp => hname _ (hbound p hp)
  refine ⟨helloFrame_ok_iff hname, ?_, ?_⟩
  · intro hello hhello reads hne hreads
    exact ⟨sentEvents sent, receive_written hsent hhello hne hreads,
      fun ch => routed_sentEvents ch sent⟩
  · intro p hp
    exact dataFrames_bounded (hsent p hp) p.2

theorem wire_transparent_straddle :
    let channels := ["a", "b"]
    let sent : List (String × Chunk) := [("b", [7, 8]), ("a", []), ("b", [9])]
    ∃ hello, helloFrame channels = .ok hello ∧
      let stream := hello ++ written sent
      let reads := [stream.take (hello.length + 1), stream.drop (hello.length + 1)]
      ∃ events, receive reads = .ok (ourHello channels, events, .peerGone) ∧
        routed "b" events = [7, 8, 9] := by
  intro channels sent
  have hname : ∀ ch ∈ channels, (utf8 ch).length ≤ maxNameLen := by decide +kernel
  obtain ⟨hok, hrun, -⟩ := wire_transparent channels hname sent (by decide)
  obtain ⟨hello, hhello⟩ := hok.mpr (by decide +kernel)
  refine ⟨hello, hhello, ?_⟩
  intro stream reads
  have hlong : hello.length + 1 < stream.length := by
    have : 1 < (written sent).length := by decide +kernel
    rw [length_append]
    omega
  obtain ⟨events, hreceive, hrouted⟩ := hrun hello hhello reads
    (by
      intro r hr
      rw [← length_pos_iff]
      rcases mem_pair.mp hr with rfl | rfl
      · rw [length_take]; omega
      · rw [length_drop]; omega)
    (by rw [flatten_cons, flatten_singleton, take_append_drop])
  exact ⟨events, hreceive, hrouted "b"⟩

end SerialNexus
