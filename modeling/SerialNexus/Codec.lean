import SerialNexus.EnvelopeExact

/-! # The reference codec

`ReferenceCodec` of `codecs/reference/src/lib.rs`: the envelope as a codec.  `demux` moves a cursor
over its buffer, past each frame that decodes and, after an error, past what `resync_skip` names. -/

namespace SerialNexus

open List Framing

inductive CodecError where
  | framing (message : String)
  | envelope (e : EnvelopeError)
deriving DecidableEq, Repr

def CodecError.display : CodecError → String
  | .framing message => s!"framing error: {message}"
  | .envelope e => e.display

structure Demuxed (σ : Type*) where
  result : Except CodecError Unit
  events : List Event
  codec : σ
deriving Repr

structure ReferenceCodec where
  buf : List UInt8
  framingErrors : ℕ
deriving DecidableEq, Repr

namespace ReferenceCodec

def new : ReferenceCodec := ⟨[], 0⟩

def buffered (c : ReferenceCodec) : ℕ := c.buf.length

def resyncSkip (rest : List UInt8) : Option ℕ :=
  if rest.length < prefixLen then none
  else
    let bodyLen := beValue (rest.take prefixLen)
    if bodyLen ≤ maxFrameSize then
      let frameEnd := prefixLen + bodyLen
      if rest.length < frameEnd then none else some frameEnd
    else some prefixLen

structure Cursor where
  pos : ℕ
  framingErrors : ℕ
  events : List Event
deriving DecidableEq, Repr

def demuxLoop (buf : List UInt8) : ℕ → Cursor → Option Cursor
  | 0, _ => none
  | turns + 1, s =>
    -- `&self.buf[pos..]` panics behind the end
    if buf.length < s.pos then none
    else
      match tryDecode (buf.drop s.pos) with
      | .ok (some (event, consumed)) =>
        demuxLoop buf turns { s with pos := s.pos + consumed, events := s.events ++ [event] }
      | .ok none => some s
      | .error _ =>
        match resyncSkip (buf.drop s.pos) with
        | none => some s
        | some skip =>
          demuxLoop buf turns
            { s with pos := s.pos + skip, framingErrors := s.framingErrors + 1 }

def demux (c : ReferenceCodec) (input : List UInt8) : Option (Demuxed ReferenceCodec) :=
  let buf := c.buf ++ input
  (demuxLoop buf (buf.length + 1) ⟨0, c.framingErrors, []⟩).map fun s =>
    ⟨.ok (), s.events, ⟨buf.drop s.pos, s.framingErrors⟩⟩

def mux (event : Event) (out : List UInt8) : Except CodecError (List UInt8) :=
  (encode event out).mapError .envelope

def demuxAll : ReferenceCodec → List (List UInt8) → Option (List Event × ReferenceCodec)
  | c, [] => some ([], c)
  | c, input :: inputs =>
    match c.demux input with
    | some ⟨.ok (), events, c⟩ => (demuxAll c inputs).map fun r => (events ++ r.1, r.2)
    | _ => none

/-! ### One call -/

abbrev decoder : Decoder UInt8 (Except EnvelopeError Event) Empty := resync tryDecode resyncSkip

def eventsOf (items : List (Except EnvelopeError Event)) : List Event :=
  items.filterMap Except.toOption

def errorsOf (items : List (Except EnvelopeError Event)) : ℕ :=
  items.countP fun item => item.toOption.isNone

section items
variable (items : List (Except EnvelopeError Event))

@[simp] theorem eventsOf_ok (event : Event) :
    eventsOf (.ok event :: items) = event :: eventsOf items := rfl

@[simp] theorem eventsOf_error (e : EnvelopeError) :
    eventsOf (.error e :: items) = eventsOf items := rfl

@[simp] theorem errorsOf_ok (event : Event) : errorsOf (.ok event :: items) = errorsOf items :=
  countP_cons_of_neg (by simp [Except.toOption])

@[simp] theorem errorsOf_error (e : EnvelopeError) :
    errorsOf (.error e :: items) = errorsOf items + 1 :=
  countP_cons_of_pos rfl

theorem eventsOf_append (more : List (Except EnvelopeError Event)) :
    eventsOf (items ++ more) = eventsOf items ++ eventsOf more := filterMap_append

theorem errorsOf_append (more : List (Except EnvelopeError Event)) :
    errorsOf (items ++ more) = errorsOf items + errorsOf more := countP_append

theorem length_eventsOf : (eventsOf items).length + errorsOf items = items.length := by
  induction items with
  | nil => rfl
  | cons item items ih =>
    cases item with
    | error e =>
      rw [eventsOf_error, errorsOf_error, length_cons]
      omega
    | ok event =>
      rw [eventsOf_ok, errorsOf_ok, length_cons, length_cons]
      omega

end items

variable {rest : List UInt8} {items : List (Except EnvelopeError Event)} {c : ReferenceCodec}

theorem resyncSkip_of_error {e : EnvelopeError} (h : tryDecode rest = .error e) :
    ∃ n, resyncSkip rest = some n ∧ 0 < n ∧ n ≤ rest.length ∧
      ∀ more, resyncSkip (rest ++ more) = some n := by
  unfold tryDecode lengthPrefixed at h
  dsimp only at h
  have h4 : prefixLen = 4 := rfl
  by_cases hlen : rest.length < prefixLen
  · rw [if_pos hlen] at h
    cases h
  rw [if_neg hlen] at h
  have htake : ∀ more, (rest ++ more).take prefixLen = rest.take prefixLen :=
    fun more => take_append_of_le_length (not_lt.mp hlen)
  unfold resyncSkip
  dsimp only
  simp only [htake, length_append]
  by_cases hmax : beValue (rest.take prefixLen) > maxFrameSize
  · refine ⟨prefixLen, ?_, by omega, by omega, fun more => ?_⟩
    · rw [if_neg hlen, if_neg (not_le.mpr hmax)]
    · rw [if_neg (by omega), if_neg (not_le.mpr hmax)]
  · rw [if_neg hmax] at h
    by_cases hshort : rest.length < prefixLen + beValue (rest.take prefixLen)
    · rw [if_pos hshort] at h
      cases h
    refine ⟨prefixLen + beValue (rest.take prefixLen), ?_, by omega, by omega, fun more => ?_⟩
    · rw [if_neg hlen, if_pos (not_lt.mp hmax), if_neg hshort]
    · rw [if_neg (by omega), if_pos (not_lt.mp hmax), if_neg (by omega)]

theorem decoder_stable : Stable decoder := by
  refine resync_stable lengthPrefixed_stable ⟨fun h hn => ?_, fun h hn => ?_⟩
  all_goals
    obtain ⟨m, hm, hpos, hle, happend⟩ := resyncSkip_of_error h
    obtain rfl : m = _ := Option.some.inj (hm.symm.trans hn)
  · exact ⟨hpos, hle⟩
  · exact happend

theorem decoder_none (h : decoder rest = .ok none) : rest.length < 4 + maxFrameSize := by
  match hd : tryDecode rest with
  | .ok none => exact lengthPrefixed_none hd
  | .ok (some (event, n)) =>
    rw [decoder, resync_value hd] at h
    cases h
  | .error e =>
    obtain ⟨n, hn, -⟩ := resyncSkip_of_error hd
    rw [decoder, resync_error hd, hn] at h
    cases h

theorem demuxLoop_eq {buf : List UInt8} {turns : ℕ} {s : Cursor} (hpos : s.pos ≤ buf.length)
    (hturns : (buf.drop s.pos).length < turns)
    (h : decodeWhole decoder (buf.drop s.pos) = (items, .ok rest)) :
    ∃ s', demuxLoop buf turns s = some s' ∧ buf.drop s'.pos = rest ∧
      s'.framingErrors = s.framingErrors + errorsOf items ∧
      s'.events = s.events ++ eventsOf items := by
  induction turns generalizing s items with
  | zero => omega
  | succ turns ih =>
    rw [length_drop] at hturns
    rw [demuxLoop, if_neg (not_lt.mpr hpos)]
    match hd : tryDecode (buf.drop s.pos) with
    | .ok none =>
      rw [decodeWhole_none (resync_none hd)] at h
      obtain ⟨rfl, hrest⟩ := Prod.mk.inj h
      exact ⟨s, rfl, Except.ok.inj hrest, rfl, (append_nil _).symm⟩
    | .ok (some (event, n)) =>
      obtain ⟨h0, hle⟩ := Session.tryDecode_stable.taken hd
      rw [length_drop] at hle
      rw [decodeWhole_value decoder_stable (resync_value hd), drop_drop] at h
      obtain ⟨rfl, hrest⟩ := Prod.mk.inj h
      obtain ⟨s', hloop, hdrop, herrors, hevents⟩ :=
        ih (s := { s with pos := s.pos + n, events := s.events ++ [event] })
          (show s.pos + n ≤ buf.length by omega) (by rw [length_drop]; dsimp only; omega)
          (Prod.ext rfl hrest)
      exact ⟨s', hloop, hdrop, herrors, hevents.trans (by simp)⟩
    | .error e =>
      obtain ⟨n, hskip, h0, hle, -⟩ := resyncSkip_of_error hd
      rw [length_drop] at hle
      have hitem : decoder (buf.drop s.pos) = .ok (some (.error e, n)) := by
        rw [decoder, resync_error hd, hskip]
        rfl
      rw [decodeWhole_value decoder_stable hitem, drop_drop] at h
      obtain ⟨rfl, hrest⟩ := Prod.mk.inj h
      obtain ⟨s', hloop, hdrop, herrors, hevents⟩ :=
        ih (s := { s with pos := s.pos + n, framingErrors := s.framingErrors + 1 })
          (show s.pos + n ≤ buf.length by omega) (by rw [length_drop]; dsimp only; omega)
          (Prod.ext rfl hrest)
      refine ⟨s', by rw [hskip]; exact hloop, hdrop, ?_, hevents⟩
      rw [errorsOf_error]
      exact herrors.trans (Nat.add_right_comm _ _ _)

theorem demux_eq {input : List UInt8}
    (h : decodeWhole decoder (c.buf ++ input) = (items, .ok rest)) :
    c.demux input =
      some ⟨.ok (), eventsOf items, ⟨rest, c.framingErrors + errorsOf items⟩⟩ := by
  obtain ⟨s', hloop, hdrop, herrors, hevents⟩ :=
    demuxLoop_eq (s := ⟨0, c.framingErrors, []⟩) (Nat.zero_le _)
      (Nat.lt_succ_self (c.buf ++ input).length) h
  rw [demux, hloop, Option.map_some, hdrop, herrors, hevents, nil_append]

theorem demuxAll_eq {inputs : List (List UInt8)} (hc : decoder c.buf = .ok none)
    (h : decodeWhole decoder (c.buf ++ inputs.flatten) = (items, .ok rest)) :
    c.demuxAll inputs = some (eventsOf items, ⟨rest, c.framingErrors + errorsOf items⟩) := by
  induction inputs generalizing c items with
  | nil =>
    rw [flatten_nil, append_nil, decodeWhole_none hc] at h
    obtain ⟨rfl, hrest⟩ := Prod.mk.inj h
    obtain rfl := Except.ok.inj hrest
    rfl
  | cons input inputs ih =>
    obtain ⟨first, mid, hfirst⟩ := decodeWhole_resync tryDecode resyncSkip (c.buf ++ input)
    have hmid := (takeN_of_decodeWhole decoder_stable hfirst).2
    rw [flatten_cons, ← append_assoc, decodeWhole_append decoder_stable hfirst] at h
    obtain ⟨rfl, hrest⟩ := Prod.mk.inj h
    have hrec := ih (c := ⟨mid, c.framingErrors + errorsOf first⟩) hmid (Prod.ext rfl hrest)
    rw [demuxAll, demux_eq hfirst]
    dsimp only
    rw [hrec, Option.map_some, eventsOf_append, errorsOf_append, Nat.add_assoc]

theorem demux_chunking :
    (∀ (c : ReferenceCodec) (input : List UInt8), ∃ out, c.demux input = some out ∧
      out.result = .ok () ∧ out.codec.buffered < 4 + maxFrameSize) ∧
    ∀ chunks : List (List UInt8), ∃ out, new.demux chunks.flatten = some out ∧
      new.demuxAll chunks = some (out.events, out.codec) := by
  refine ⟨fun c input => ?_, fun chunks => ?_⟩
  · obtain ⟨items, rest, h⟩ := decodeWhole_resync tryDecode resyncSkip (c.buf ++ input)
    exact ⟨_, demux_eq h, rfl, decoder_none (takeN_of_decodeWhole decoder_stable h).2⟩
  · obtain ⟨items, rest, h⟩ := decodeWhole_resync tryDecode resyncSkip (new.buf ++ chunks.flatten)
    exact ⟨_, demux_eq h, demuxAll_eq rfl h⟩

structure Transmission where
  event : Event
  sent : List UInt8
  received : List UInt8
  encoded : mux event [] = .ok sent
  length_eq : received.length = sent.length
  prefix_eq : received.take prefixLen = sent.take prefixLen

theorem mux_eq_ok {event : Event} {out frame : List UInt8} :
    mux event out = .ok frame ↔ encode event out = .ok frame := by
  rw [mux]
  cases encode event out with
  | error e => exact ⟨nofun, nofun⟩
  | ok bytes => simp [Except.mapError]

theorem Transmission.sent_eq (t : Transmission) :
    (envelopeBody t.event).length ≤ maxFrameSize ∧
      t.sent = beBytes prefixLen (envelopeBody t.event).length ++ envelopeBody t.event := by
  obtain ⟨hfits, hsent⟩ := encode_eq_ok_iff.mp (mux_eq_ok.mp t.encoded)
  rw [envelopeBody_length] at hsent ⊢
  exact ⟨by omega, hsent⟩

theorem Transmission.received_eq (t : Transmission) :
    (t.received.drop prefixLen).length ≤ maxFrameSize ∧
      t.received = beBytes prefixLen (t.received.drop prefixLen).length ++
        t.received.drop prefixLen := by
  obtain ⟨hfits, hsent⟩ := t.sent_eq
  have hbody : (t.received.drop prefixLen).length = (envelopeBody t.event).length := by
    rw [length_drop, t.length_eq, hsent, length_append, beBytes_length, Nat.add_sub_cancel_left]
  have hprefix : t.received.take prefixLen = beBytes prefixLen (envelopeBody t.event).length := by
    rw [t.prefix_eq, hsent, take_left' (beBytes_length _ _)]
  refine ⟨hbody.trans_le hfits, ?_⟩
  rw [hbody, ← hprefix, take_append_drop]

theorem body_frame {body : List UInt8} (hmax : body.length ≤ maxFrameSize) :
    Frame decoder (beBytes prefixLen body.length ++ body) (parseEvent body) where
  nonempty := lengthPrefixed_ne_nil body
  whole rest := by
    have hbody : tryDecode (beBytes prefixLen body.length ++ body ++ rest) =
        (parseEvent body).map fun a => some (a, prefixLen + body.length) :=
      lengthPrefixed_body hmax (by decide) rest
    rw [length_append, beBytes_length]
    cases hp : parseEvent body with
    | ok event =>
      rw [hp] at hbody
      exact resync_value hbody
    | error e =>
      rw [hp] at hbody
      -- the skip after a bad body is the length of its frame
      have hskip : resyncSkip (beBytes prefixLen body.length ++ body ++ rest) =
          some (prefixLen + body.length) := by
        have hlen : (beBytes prefixLen body.length ++ body ++ rest).length =
            prefixLen + body.length + rest.length := by
          rw [length_append, length_append, beBytes_length]
        have htake : (beBytes prefixLen body.length ++ body ++ rest).take prefixLen =
            beBytes prefixLen body.length := by
          rw [append_assoc, take_left' (beBytes_length _ _)]
        have h32 : body.length < 256 ^ prefixLen := lt_of_le_of_lt hmax (by decide)
        rw [resyncSkip, hlen, htake, beValue_beBytes h32, if_neg (by omega)]
        dsimp only
        rw [if_pos hmax, if_neg (by omega)]
      rw [decoder, resync_error hbody, hskip]
      rfl
  partly p hp hne := resync_none (lengthPrefixed_partly hmax (by decide) hp hne)

def Transmission.item (t : Transmission) : Except EnvelopeError Event :=
  parseEvent (t.received.drop prefixLen)

theorem Transmission.received_frame (t : Transmission) : Frame decoder t.received t.item := by
  obtain ⟨hmax, heq⟩ := t.received_eq
  rw [heq]
  exact body_frame hmax

theorem Transmission.item_of_intact {t : Transmission} (h : t.received = t.sent) :
    t.item = .ok t.event := by
  obtain ⟨hfits, hsent⟩ := t.sent_eq
  have hchannel : (utf8 t.event.channel).length < 2 ^ 16 := by
    have hmax : maxFrameSize = 2 ^ 16 := rfl
    rw [envelopeBody_length] at hfits
    omega
  rw [item, h, hsent, drop_left' (beBytes_length _ _)]
  exact parseEvent_envelopeBody t.event hchannel

theorem demux_resync (line : List Transmission) (chunks : List (List UInt8))
    (h : chunks.flatten = (line.map (·.received)).flatten) :
    ∃ (items : List (Except EnvelopeError Event)) (codec : ReferenceCodec),
      new.demuxAll chunks = some (eventsOf items, codec) ∧
      List.Forall₂ (fun t item => t.received = t.sent → item = .ok t.event) line items ∧
      codec.framingErrors = errorsOf items ∧ codec.buf = [] ∧
      (eventsOf items).length + codec.framingErrors = line.length := by
  have hframes : ∀ f ∈ line.map fun t => (t.received, t.item), Frame decoder f.1 f.2 := by
    simpa using fun t _ => t.received_frame
  have hwhole : decodeWhole decoder (new.buf ++ chunks.flatten) =
      (line.map Transmission.item, .ok []) := by
    have hdecoded := decodeWhole_frames decoder_stable hframes (show decoder [] = .ok none from rfl)
    rw [map_map, map_map, append_nil] at hdecoded
    rw [h]
    exact hdecoded
  refine ⟨_, _, demuxAll_eq rfl hwhole, ?_, Nat.zero_add _, rfl, ?_⟩
  · rw [forall₂_map_right_iff, forall₂_same]
    exact fun t _ => Transmission.item_of_intact
  · dsimp only [new]
    rw [Nat.zero_add, length_eventsOf, length_map]

theorem demux_resync_garbled :
    let event (bytes : Chunk) : Event := ⟨"a", .data bytes⟩
    let good (n : UInt8) : List UInt8 := [0, 0, 0, 5, 0, 0, 1, 97, n]
    let line : List Transmission :=
      [⟨event [1], good 1, good 1, by decide, rfl, rfl⟩,
        ⟨event [2], good 2, [0, 0, 0, 5, 9, 0, 1, 97, 2], by decide, rfl, rfl⟩,
        ⟨event [3], good 3, good 3, by decide, rfl, rfl⟩]
    let chunks : List (List UInt8) :=
      [[0, 0], [0, 5, 0, 0, 1, 97, 1, 0, 0, 0, 5, 9], [0, 1, 97, 2, 0, 0, 0, 5, 0, 0, 1, 97, 3]]
    new.demuxAll chunks = some ([event [1], event [3]], ⟨[], 1⟩) ∧
    ∃ (items : List (Except EnvelopeError Event)) (codec : ReferenceCodec),
      new.demuxAll chunks = some (eventsOf items, codec) ∧
      List.Forall₂ (fun t item => t.received = t.sent → item = .ok t.event) line items ∧
      codec.framingErrors = errorsOf items ∧ codec.buf = [] ∧
      (eventsOf items).length + codec.framingErrors = line.length := by
  intro event good line chunks
  exact ⟨by decide +kernel, demux_resync line chunks rfl⟩

end ReferenceCodec
end SerialNexus
