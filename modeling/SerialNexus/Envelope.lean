import SerialNexus.Framing
import SerialNexus.Graph

/-! # The envelope and the wire hello

The frame formats of `codec-api/src/lib.rs`.  An envelope frame is a length, a type byte, a channel
identity and a payload; the hello is a length, a magic number, a version, a capability set and the
announced channel identities. -/

namespace SerialNexus

open List Framing

def maxFrameSize : ℕ := 64 * 1024

def utf8 (s : String) : List UInt8 := s.toUTF8.data.toList

def fromUtf8 (bs : List UInt8) : Option String := String.fromUTF8? ⟨⟨bs⟩⟩

theorem utf8_ofList (cs : List Char) : utf8 (.ofList cs) = cs.flatMap String.utf8EncodeChar := by
  rw [utf8, String.toUTF8, String.toByteArray_ofList, List.utf8Encode, data_toByteArray]

theorem utf8_append (s t : String) : utf8 (s ++ t) = utf8 s ++ utf8 t := by
  simp [utf8, String.toUTF8, String.toByteArray_append]

@[simp] theorem fromUtf8_utf8 (s : String) : fromUtf8 (utf8 s) = some s := by
  change (if h : s.toByteArray.IsValidUTF8 then some (String.fromUTF8 s.toByteArray h) else none) = _
  rw [dif_pos s.isValidUTF8]
  rfl

theorem utf8_of_fromUtf8 {bs : List UInt8} {s : String} (h : fromUtf8 bs = some s) :
    utf8 s = bs := by
  change (if h : ByteArray.IsValidUTF8 ⟨⟨bs⟩⟩ then some (String.fromUTF8 ⟨⟨bs⟩⟩ h) else none) = _ at h
  split_ifs at h
  obtain rfl := Option.some.inj h
  rfl

inductive EventKind where
  | data (bytes : Chunk)
  | opened
  | closed
  | error (message : String)
deriving DecidableEq, Repr

structure Event where
  channel : String
  kind : EventKind
deriving DecidableEq, Repr

def EventKind.typeByte : EventKind → UInt8
  | .data _ => 0
  | .opened => 1
  | .closed => 2
  | .error _ => 3

def EventKind.payload : EventKind → List UInt8
  | .data bytes => bytes
  | .error message => utf8 message
  | .opened | .closed => []

inductive EnvelopeError where
  | frameTooLarge (len : ℕ)
  | unknownType (byte : UInt8)
  | truncated (what : String)
  | badChannelId
  | badErrorMessage
deriving DecidableEq, Repr

def EnvelopeError.display : EnvelopeError → String
  | .frameTooLarge len => s!"frame body length {len} exceeds the maximum {maxFrameSize}"
  | .unknownType byte => s!"unknown frame type {byte}"
  | .truncated what => s!"truncated frame: {what}"
  | .badChannelId => "channel identity is not valid UTF-8"
  | .badErrorMessage => "error message is not valid UTF-8"

def envelopeBody (event : Event) : List UInt8 :=
  event.kind.typeByte :: (beBytes 2 (utf8 event.channel).length ++ utf8 event.channel ++
    event.kind.payload)

def encode (event : Event) (out : List UInt8) : Except EnvelopeError (List UInt8) :=
  let bodyLen := 1 + 2 + (utf8 event.channel).length + event.kind.payload.length
  if bodyLen > maxFrameSize then .error (.frameTooLarge bodyLen)
  else if (utf8 event.channel).length ≥ 2 ^ 16 then
    .error (.frameTooLarge (utf8 event.channel).length)
  else .ok (out ++ (beBytes prefixLen bodyLen ++ envelopeBody event))

def parseEvent (body : List UInt8) : Except EnvelopeError Event :=
  if body.length < 3 then .error (.truncated "header")
  else
    let typeByte := body.headD 0
    let channelLen := beValue ((body.drop 1).take 2)
    let channelEnd := 3 + channelLen
    if body.length < channelEnd then .error (.truncated "channel id")
    else
      let payload := body.drop channelEnd
      match fromUtf8 ((body.take channelEnd).drop 3) with
      | none => .error .badChannelId
      | some channel =>
        if typeByte = 0 then .ok ⟨channel, .data payload⟩
        else if typeByte = 1 then .ok ⟨channel, .opened⟩
        else if typeByte = 2 then .ok ⟨channel, .closed⟩
        else if typeByte = 3 then
          match fromUtf8 payload with
          | none => .error .badErrorMessage
          | some message => .ok ⟨channel, .error message⟩
        else .error (.unknownType typeByte)

def tryDecode : Decoder UInt8 Event EnvelopeError :=
  lengthPrefixed maxFrameSize .frameTooLarge parseEvent

theorem envelopeBody_length (event : Event) :
    (envelopeBody event).length =
      1 + 2 + (utf8 event.channel).length + event.kind.payload.length := by
  simp only [envelopeBody, length_cons, length_append, beBytes_length]
  omega

theorem parseEvent_envelopeBody (event : Event) (h : (utf8 event.channel).length < 2 ^ 16) :
    parseEvent (envelopeBody event) = .ok event := by
  obtain ⟨channel, kind⟩ := event
  have hlen := envelopeBody_length ⟨channel, kind⟩
  dsimp only at hlen h
  have hval : beValue (((envelopeBody ⟨channel, kind⟩).drop 1).take 2) = (utf8 channel).length := by
    have : ((envelopeBody ⟨channel, kind⟩).drop 1).take 2 = beBytes 2 (utf8 channel).length := by
      simp [envelopeBody, append_assoc]
    rw [this, beValue_beBytes (by simpa using h)]
  have hchan : ((envelopeBody ⟨channel, kind⟩).take (3 + (utf8 channel).length)).drop 3 =
      utf8 channel := by
    rw [drop_take, Nat.add_sub_cancel_left]
    simp [envelopeBody, beBytes]
  have hpay : (envelopeBody ⟨channel, kind⟩).drop (3 + (utf8 channel).length) = kind.payload := by
    rw [← drop_drop]
    simp [envelopeBody, beBytes]
  unfold parseEvent
  rw [if_neg (by omega)]
  dsimp only
  rw [hval, if_neg (by omega), hchan, hpay, fromUtf8_utf8]
  cases kind with
  | data | opened | closed => rfl
  | error message => simp [envelopeBody, EventKind.typeByte, EventKind.payload]

theorem encode_frame {event : Event} {frame : List UInt8} (h : encode event [] = .ok frame) :
    Frame tryDecode frame event ∧ frame.length ≤ prefixLen + maxFrameSize := by
  unfold encode at h
  dsimp only at h
  split_ifs at h with h1 h2
  obtain rfl := Except.ok.inj h
  rw [← envelopeBody_length] at h1 ⊢
  rw [nil_append]
  refine ⟨lengthPrefixed_frame (by omega) (by decide) (parseEvent_envelopeBody event (by omega)), ?_⟩
  rw [length_append, beBytes_length]
  omega

structure FrameDecoder where
  buf : List UInt8
  start : ℕ
  start_le : start ≤ buf.length

namespace FrameDecoder

def new : FrameDecoder := ⟨[], 0, le_rfl⟩

variable (d : FrameDecoder)

def live : List UInt8 := d.buf.drop d.start

def compact : FrameDecoder :=
  if d.start = 0 then d
  else if d.start = d.buf.length then ⟨[], 0, le_rfl⟩
  else ⟨d.buf.drop d.start, 0, Nat.zero_le _⟩

def push (bytes : List UInt8) : FrameDecoder :=
  ⟨d.compact.buf ++ bytes, d.compact.start, by
    rw [length_append]
    exact Nat.le_add_right_of_le d.compact.start_le⟩

def buffered : ℕ := d.buf.length - d.start

def nextEvent : Except EnvelopeError (Option Event) × FrameDecoder :=
  match h : tryDecode d.live with
  | .error e => (.error e, d)
  | .ok none => (.ok none, d)
  | .ok (some (event, consumed)) =>
    (.ok (some event),
      if d.start + consumed = d.buf.length then ⟨[], 0, le_rfl⟩
      else ⟨d.buf, d.start + consumed, by
        have hle := (lengthPrefixed_consumed h).2
        have hs := d.start_le
        rw [live, length_drop] at hle
        omega⟩)

theorem buffered_eq : d.buffered = d.live.length := by
  rw [buffered, live, length_drop]

theorem compact_start : d.compact.start = 0 := by
  unfold compact
  split_ifs with h
  · exact h
  · rfl
  · rfl

theorem compact_buf : d.compact.buf = d.live := by
  unfold compact live
  split_ifs with h1 h2
  · rw [h1, drop_zero]
  · rw [drop_of_length_le (by omega)]
  · rfl

@[simp] theorem new_live : new.live = [] := rfl

@[simp] theorem push_live (bytes : List UInt8) : (d.push bytes).live = d.live ++ bytes := by
  rw [live, push]
  dsimp only
  rw [compact_start, compact_buf, drop_zero]

variable {d}

theorem nextEvent_error {e : EnvelopeError} (h : tryDecode d.live = .error e) :
    d.nextEvent = (.error e, d) := by
  unfold nextEvent
  split <;> simp_all

theorem nextEvent_none (h : tryDecode d.live = .ok none) : d.nextEvent = (.ok none, d) := by
  unfold nextEvent
  split <;> simp_all

theorem nextEvent_some {event : Event} {n : ℕ} (h : tryDecode d.live = .ok (some (event, n))) :
    d.nextEvent.1 = .ok (some event) ∧ d.nextEvent.2.live = d.live.drop n := by
  unfold nextEvent
  split
  · next he => rw [h] at he; cases he
  · next he => rw [h] at he; cases he
  · next event' n' he =>
    rw [h] at he
    obtain ⟨rfl, rfl⟩ : event = event' ∧ n = n' := by simpa using he
    refine ⟨rfl, ?_⟩
    dsimp only
    have hdrop : d.live.drop n = d.buf.drop (d.start + n) := by rw [live, drop_drop]
    rw [hdrop]
    split_ifs with hall
    · rw [hall, drop_length]
      rfl
    · rfl

theorem nextEvent_cases (d : FrameDecoder) :
    (∃ e, tryDecode d.live = .error e ∧ d.nextEvent = (.error e, d)) ∨
    (tryDecode d.live = .ok none ∧ d.nextEvent = (.ok none, d)) ∨
    ∃ event n, tryDecode d.live = .ok (some (event, n)) ∧ d.nextEvent.1 = .ok (some event) ∧
      d.nextEvent.2.live = d.live.drop n := by
  match h : tryDecode d.live with
  | .error e => exact .inl ⟨e, rfl, nextEvent_error h⟩
  | .ok none => exact .inr (.inl ⟨rfl, nextEvent_none h⟩)
  | .ok (some (event, n)) => exact .inr (.inr ⟨event, n, rfl, nextEvent_some h⟩)

end FrameDecoder

/-! ### The hello -/

def wireMagic : ℕ := 0x534E584C

def wireVersion : ℕ := 1

structure Hello where
  version : ℕ
  capabilities : ℕ
  channels : List String
deriving DecidableEq, Repr

inductive WireError where
  | badMagic (got : ℕ)
  | unsupportedVersion (got : ℕ)
  | frameTooLarge (len : ℕ)
  | truncated (what : String)
  | badChannelId
deriving DecidableEq, Repr

def hex : ℕ → ℕ → String
  | 0, _ => ""
  | width + 1, n => hex width (n / 16) ++ String.singleton (Nat.digitChar (n % 16))

def WireError.display : WireError → String
  | .badMagic got => s!"bad wire magic 0x{hex 8 got} (expected 0x{hex 8 wireMagic})"
  | .unsupportedVersion got =>
    s!"unsupported wire protocol version {got} (this daemon speaks {wireVersion})"
  | .frameTooLarge len => s!"hello frame body length {len} exceeds the maximum {maxFrameSize}"
  | .truncated what => s!"truncated hello: {what}"
  | .badChannelId => "announced channel identity is not valid UTF-8"

def announcements : List String → List UInt8
  | [] => []
  | ch :: chs => beBytes 2 (utf8 ch).length ++ utf8 ch ++ announcements chs

def oversizeId (channels : List String) : Option ℕ :=
  (channels.map fun ch => (utf8 ch).length).find? fun n => decide (n ≥ 2 ^ 16)

def helloBodyLen (channels : List String) : ℕ :=
  12 + (channels.map fun ch => 2 + (utf8 ch).length).sum

theorem helloBodyLen_ge (channels : List String) :
    12 + 2 * channels.length ≤ helloBodyLen channels := by
  have : 2 * channels.length ≤ (channels.map fun ch => 2 + (utf8 ch).length).sum := by
    induction channels with
    | nil => simp
    | cons ch chs ih =>
      simp only [length_cons, map_cons, sum_cons]
      omega
  unfold helloBodyLen
  omega

def helloBody (hello : Hello) : List UInt8 :=
  beBytes 4 wireMagic ++ beBytes 2 hello.version ++ beBytes 4 hello.capabilities ++
    beBytes 2 hello.channels.length ++ announcements hello.channels

def encodeHello (hello : Hello) (out : List UInt8) : Except WireError (List UInt8) :=
  let bodyLen := helloBodyLen hello.channels
  if bodyLen > maxFrameSize then .error (.frameTooLarge bodyLen)
  else if hello.channels.length ≥ 2 ^ 16 then .error (.frameTooLarge bodyLen)
  else
    match oversizeId hello.channels with
    | some n => .error (.frameTooLarge n)
    | none => .ok (out ++ (beBytes prefixLen bodyLen ++ helloBody hello))

def parseAnnouncements : ℕ → List UInt8 → Except WireError (List String)
  | 0, _ => .ok []
  | count + 1, rest =>
    if rest.length < 2 then .error (.truncated "announcement length")
    else
      let chLen := beValue (rest.take 2)
      if rest.length < 2 + chLen then .error (.truncated "announcement identity")
      else
        match fromUtf8 ((rest.drop 2).take chLen) with
        | none => .error .badChannelId
        | some ch => (parseAnnouncements count (rest.drop (2 + chLen))).map (ch :: ·)

def parseHello (body : List UInt8) : Except WireError Hello :=
  if body.length < 6 then .error (.truncated "header")
  else
    let magic := beValue (body.take 4)
    if magic ≠ wireMagic then .error (.badMagic magic)
    else
      let version := beValue ((body.drop 4).take 2)
      if version ≠ wireVersion then .error (.unsupportedVersion version)
      else if body.length < 12 then .error (.truncated "header")
      else
        let capabilities := beValue ((body.drop 6).take 4)
        let count := beValue ((body.drop 10).take 2)
        (parseAnnouncements count (body.drop 12)).map fun channels =>
          { version, capabilities, channels }

def tryDecodeHello : Decoder UInt8 Hello WireError :=
  lengthPrefixed maxFrameSize .frameTooLarge parseHello

theorem announcements_length (channels : List String) :
    (announcements channels).length = (channels.map fun ch => 2 + (utf8 ch).length).sum := by
  induction channels with
  | nil => rfl
  | cons ch chs ih => simp [announcements, ih, Nat.add_assoc]

theorem helloBody_length (hello : Hello) :
    (helloBody hello).length = helloBodyLen hello.channels := by
  simp only [helloBody, helloBodyLen, length_append, beBytes_length, announcements_length]

theorem parseAnnouncements_announcements (channels : List String)
    (h : ∀ ch ∈ channels, (utf8 ch).length < 2 ^ 16) :
    parseAnnouncements channels.length (announcements channels) = .ok channels := by
  induction channels with
  | nil => rfl
  | cons ch chs ih =>
    have hch := h ch mem_cons_self
    have hlen : (announcements (ch :: chs)).length =
        2 + (utf8 ch).length + (announcements chs).length := by
      simp [announcements, Nat.add_assoc]
    have hval : beValue ((announcements (ch :: chs)).take 2) = (utf8 ch).length := by
      have : (announcements (ch :: chs)).take 2 = beBytes 2 (utf8 ch).length := by
        simp [announcements, beBytes]
      rw [this, beValue_beBytes (by simpa using hch)]
    have hid : ((announcements (ch :: chs)).drop 2).take (utf8 ch).length = utf8 ch := by
      simp [announcements, beBytes]
    have hrest : (announcements (ch :: chs)).drop (2 + (utf8 ch).length) = announcements chs := by
      rw [← drop_drop]
      simp [announcements, beBytes]
    rw [length_cons, parseAnnouncements, if_neg (by omega)]
    dsimp only
    rw [hval, if_neg (by omega), hid, fromUtf8_utf8, hrest,
      ih fun c hc => h c (mem_cons_of_mem _ hc)]
    rfl

theorem parseHello_helloBody {hello : Hello} (hv : hello.version = wireVersion)
    (hc : hello.capabilities < 2 ^ 32) (hn : hello.channels.length < 2 ^ 16)
    (hid : ∀ ch ∈ hello.channels, (utf8 ch).length < 2 ^ 16) :
    parseHello (helloBody hello) = .ok hello := by
  obtain ⟨version, capabilities, channels⟩ := hello
  subst hv
  have hlen : 12 ≤ (helloBody ⟨wireVersion, capabilities, channels⟩).length := by
    rw [helloBody_length]
    exact Nat.le_add_right _ _
  have h4 : ((helloBody ⟨wireVersion, capabilities, channels⟩).drop 6).take 4 =
      beBytes 4 capabilities := by simp [helloBody, beBytes]
  have h5 : ((helloBody ⟨wireVersion, capabilities, channels⟩).drop 10).take 2 =
      beBytes 2 channels.length := by simp [helloBody, beBytes]
  have h6 : (helloBody ⟨wireVersion, capabilities, channels⟩).drop 12 = announcements channels := by
    simp [helloBody, beBytes]
  have h1 : beValue ((helloBody ⟨wireVersion, capabilities, channels⟩).take 4) = wireMagic := by
    have : (helloBody ⟨wireVersion, capabilities, channels⟩).take 4 = beBytes 4 wireMagic := by
      simp [helloBody, beBytes]
    rw [this, beValue_beBytes (by decide)]
  have h2 : beValue (((helloBody ⟨wireVersion, capabilities, channels⟩).drop 4).take 2) =
      wireVersion := by
    have : ((helloBody ⟨wireVersion, capabilities, channels⟩).drop 4).take 2 =
        beBytes 2 wireVersion := by simp [helloBody, beBytes]
    rw [this, beValue_beBytes (by decide)]
  unfold parseHello
  rw [if_neg (by omega)]
  dsimp only
  rw [h1, h2, if_neg (by simp), if_neg (by simp), if_neg (by omega), h4, h5, h6,
    beValue_beBytes (by simpa using hc), beValue_beBytes (by simpa using hn),
    parseAnnouncements_announcements channels hid]
  rfl

theorem oversizeId_eq_none {channels : List String} (h : oversizeId channels = none) :
    ∀ ch ∈ channels, (utf8 ch).length < 2 ^ 16 := by
  intro ch hch
  rw [oversizeId, find?_eq_none] at h
  have := h (utf8 ch).length (mem_map_of_mem hch)
  simpa using this

theorem encodeHello_frame {hello : Hello} {frame : List UInt8} (hv : hello.version = wireVersion)
    (hc : hello.capabilities < 2 ^ 32) (h : encodeHello hello [] = .ok frame) :
    Frame tryDecodeHello frame hello := by
  unfold encodeHello at h
  dsimp only at h
  split_ifs at h with h1 h2
  cases ho : oversizeId hello.channels with
  | some n => rw [ho] at h; cases h
  | none =>
    rw [ho] at h
    obtain rfl := Except.ok.inj h
    rw [← helloBody_length] at h1 ⊢
    exact lengthPrefixed_frame (by omega) (by decide)
      (parseHello_helloBody hv hc (by omega) (oversizeId_eq_none ho))

end SerialNexus
