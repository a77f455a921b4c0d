import SerialNexus.Envelope

/-! # The envelope as a code, and its streaming decoder

`encode` and `try_decode` of `codec-api/src/lib.rs` form an exact prefix code (`envelope_exact`),
but for what an open or a close frame has as a payload. -/

namespace SerialNexus

open List Framing

def encodeInto (event : Event) : ExceptT EnvelopeError (StateM (List UInt8)) Unit := do
  let channel := utf8 event.channel
  let payload := event.kind.payload
  let bodyLen := 1 + 2 + channel.length + payload.length
  if bodyLen > maxFrameSize then throw (.frameTooLarge bodyLen)
  if channel.length ≥ 2 ^ 16 then throw (.frameTooLarge channel.length)
  modify (· ++ beBytes prefixLen bodyLen)
  modify (· ++ [event.kind.typeByte])
  modify (· ++ beBytes 2 channel.length)
  modify (· ++ channel)
  modify (· ++ payload)

def encodeTo (event : Event) (out : List UInt8) : Except EnvelopeError Unit × List UInt8 :=
  (encodeInto event).run.run out

theorem encodeTo_eq (event : Event) (out : List UInt8) :
    encodeTo event out =
      match encode event out with
      | .ok out' => (.ok (), out')
      | .error e => (.error e, out) := by
  unfold encode
  dsimp only
  by_cases h1 : 1 + 2 + (utf8 event.channel).length + event.kind.payload.length > maxFrameSize
  · rw [if_pos h1]
    simp only [encodeTo, encodeInto, if_pos h1]
    rfl
  by_cases h2 : (utf8 event.channel).length ≥ 2 ^ 16
  · rw [if_neg h1, if_pos h2]
    simp only [encodeTo, encodeInto, if_neg h1, if_pos h2]
    rfl
  · rw [if_neg h1, if_neg h2]
    simp only [encodeTo, encodeInto, if_neg h1, if_neg h2, envelopeBody]
    change (Except.ok (), _) = (Except.ok (), _)
    simp

variable {event : Event}

theorem encode_eq_ok_iff {out out' : List UInt8} :
    encode event out = .ok out' ↔
      3 + (utf8 event.channel).length + event.kind.payload.length ≤ maxFrameSize ∧
        out' = out ++ (beBytes prefixLen (envelopeBody event).length ++ envelopeBody event) := by
  unfold encode
  dsimp only
  rw [envelopeBody_length]
  have hmax : maxFrameSize = 2 ^ 16 := rfl
  split_ifs with h1 h2
  · simp only [false_iff, not_and]
    omega
  · simp only [false_iff, not_and]
    omega
  · rw [Except.ok.injEq, eq_comm]
    exact ⟨fun h => ⟨by omega, h⟩, fun h => h.2⟩

def payloadPart (b : List UInt8) (n : ℕ) : List UInt8 :=
  let body := (b.take n).drop prefixLen
  body.drop (3 + beValue ((body.drop 1).take 2))

theorem parseEvent_cons {t x y : UInt8} {rest : List UInt8} {len : ℕ} (hlen : beValue [x, y] = len) :
    parseEvent (t :: x :: y :: rest) =
      if rest.length < len then .error (.truncated "channel id")
      else
        match fromUtf8 (rest.take len) with
        | none => .error .badChannelId
        | some channel =>
          if t = 0 then .ok ⟨channel, .data (rest.drop len)⟩
          else if t = 1 then .ok ⟨channel, .opened⟩
          else if t = 2 then .ok ⟨channel, .closed⟩
          else if t = 3 then
            match fromUtf8 (rest.drop len) with
            | none => .error .badErrorMessage
            | some message => .ok ⟨channel, .error message⟩
          else .error (.unknownType t) := by
  have hval : beValue (((t :: x :: y :: rest).drop 1).take 2) = len := hlen
  have hshort : (t :: x :: y :: rest).length < 3 + len ↔ rest.length < len := by
    simp only [length_cons]
    omega
  have hid : ((t :: x :: y :: rest).take (3 + len)).drop 3 = rest.take len := by
    rw [Nat.add_comm]
    rfl
  have hpay : (t :: x :: y :: rest).drop (3 + len) = rest.drop len := by
    rw [Nat.add_comm]
    rfl
  unfold parseEvent
  rw [if_neg (by simp)]
  dsimp only
  rw [hval]
  by_cases hs : rest.length < len
  · rw [if_pos hs, if_pos (hshort.mpr hs)]
  · rw [if_neg (mt hshort.mp hs), hid, hpay]
    exact (if_neg hs).symm

theorem parseEvent_body {body : List UInt8} (h : parseEvent body = .ok event)
    (hp : (event.kind ≠ .opened ∧ event.kind ≠ .closed) ∨
      body.drop (3 + beValue ((body.drop 1).take 2)) = []) : envelopeBody event = body := by
  match body, h, hp with
  | [], h, _ => cases h
  | [_], h, _ => cases h
  | [_, _], h, _ => cases h
  | t :: x :: y :: rest, h, hp =>
    have hbytes : beBytes 2 (beValue [x, y]) = [x, y] := beBytes_beValue [x, y]
    change _ ∨ (t :: x :: y :: rest).drop (3 + beValue [x, y]) = [] at hp
    generalize hlen : beValue [x, y] = len at hbytes hp
    rw [Nat.add_comm] at hp
    change _ ∨ rest.drop len = [] at hp
    rw [parseEvent_cons hlen] at h
    by_cases hshort : rest.length < len
    · rw [if_pos hshort] at h
      cases h
    rw [if_neg hshort] at h
    cases hid : fromUtf8 (rest.take len) with
    | none => rw [hid] at h; cases h
    | some channel =>
      rw [hid] at h
      dsimp only at h
      have hutf := utf8_of_fromUtf8 hid
      have hchlen : (utf8 channel).length = len := by
        rw [hutf, length_take]
        omega
      -- an accepted body is the type byte, the length and the identity, then its payload part
      have hbody : ∀ kind : EventKind, kind.typeByte = t → kind.payload = rest.drop len →
          envelopeBody ⟨channel, kind⟩ = t :: x :: y :: rest := by
        intro kind htype hrest
        rw [envelopeBody, htype, hrest, hchlen, hbytes, hutf, append_assoc, take_append_drop]
        rfl
      split_ifs at h with h0 h1 h2 h3
      · obtain rfl := Except.ok.inj h
        exact hbody _ h0.symm rfl
      · obtain rfl := Except.ok.inj h
        exact hbody _ h1.symm (hp.resolve_left (by simp)).symm
      · obtain rfl := Except.ok.inj h
        exact hbody _ h2.symm (hp.resolve_left (by simp)).symm
      · cases hmsg : fromUtf8 (rest.drop len) with
        | none => rw [hmsg] at h; cases h
        | some message =>
          rw [hmsg] at h
          obtain rfl := Except.ok.inj h
          exact hbody _ h3.symm (utf8_of_fromUtf8 hmsg)

theorem encode_of_tryDecode {b : List UInt8} {n : ℕ} (h : tryDecode b = .ok (some (event, n)))
    (hp : (event.kind ≠ .opened ∧ event.kind ≠ .closed) ∨ payloadPart b n = []) :
    encode event [] = .ok (b.take n) := by
  obtain ⟨hparse, hmax, htake⟩ := lengthPrefixed_value h
  have hbody := parseEvent_body hparse hp
  have hlen := envelopeBody_length event
  rw [hbody] at hlen
  rw [encode_eq_ok_iff, hbody, nil_append]
  exact ⟨by omega, htake⟩

theorem envelope_exact :
    (∀ (event : Event) (out : List UInt8),
      ((∃ e, (encodeTo event out).1 = .error e) ↔
        maxFrameSize < 3 + (utf8 event.channel).length + event.kind.payload.length) ∧
      (∀ e, (encodeTo event out).1 = .error e → (encodeTo event out).2 = out) ∧
      ((encodeTo event out).1 = .ok () → ∃ frame, (encodeTo event out).2 = out ++ frame ∧
        (∀ rest, tryDecode (frame ++ rest) = .ok (some (event, frame.length))) ∧
        ∀ p, p <+: frame → p ≠ frame → tryDecode p = .ok none)) ∧
    (∀ (b : List UInt8) (event : Event) (n : ℕ), tryDecode b = .ok (some (event, n)) →
      ((event.kind ≠ .opened ∧ event.kind ≠ .closed) ∨ payloadPart b n = []) →
      encodeTo event [] = (.ok (), b.take n)) ∧
    ∀ (b : List UInt8) (e : EnvelopeError), tryDecode b = .error e →
      ∀ more, tryDecode (b ++ more) = .error e := by
  refine ⟨fun event out => ?_, fun b event n h hp => ?_, fun b e h => lengthPrefixed_stable.error h⟩
  · rw [encodeTo_eq]
    cases henc : encode event out with
    | error e =>
      have hlarge : ¬ 3 + (utf8 event.channel).length + event.kind.payload.length ≤
          maxFrameSize := by
        intro hfits
        rw [encode_eq_ok_iff.mpr ⟨hfits, rfl⟩] at henc
        cases henc
      exact ⟨⟨fun _ => not_le.mp hlarge, fun _ => ⟨e, rfl⟩⟩, fun _ _ => rfl, nofun⟩
    | ok out' =>
      obtain ⟨hfits, rfl⟩ := encode_eq_ok_iff.mp henc
      obtain ⟨hframe, -⟩ := encode_frame (encode_eq_ok_iff.mpr ⟨hfits, (nil_append _).symm⟩)
      refine ⟨⟨nofun, fun h => absurd hfits (not_le.mpr h)⟩, nofun, fun _ => ?_⟩
      exact ⟨_, rfl, hframe.whole, hframe.partly⟩
  · rw [encodeTo_eq, encode_of_tryDecode h hp]

inductive DecoderCall where
  | push (bytes : List UInt8)
  | nextEvent
deriving DecidableEq, Repr

structure Session where
  decoder : FrameDecoder
  pushed : List UInt8
  answers : List (Except EnvelopeError (Option Event))

namespace Session

def fresh : Session := ⟨.new, [], []⟩

def step (s : Session) : DecoderCall → Session
  | .push bytes => { s with decoder := s.decoder.push bytes, pushed := s.pushed ++ bytes }
  | .nextEvent =>
    { s with
      decoder := s.decoder.nextEvent.2
      answers := s.answers ++ [s.decoder.nextEvent.1] }

def run (calls : List DecoderCall) : Session := calls.foldl step fresh

def eventOf : Except EnvelopeError (Option Event) → Option Event
  | .ok (some event) => some event
  | _ => none

def events (s : Session) : List Event := s.answers.filterMap eventOf

structure Faithful (s : Session) : Prop where
  taken : takeN tryDecode s.events.length s.pushed = some (s.events, s.decoder.live)
  stuck : ∀ e, .error e ∈ s.answers → tryDecode s.decoder.live = .error e
  repeated : ∀ before e after, s.answers = before ++ .error e :: after → ∀ a ∈ after, a = .error e

theorem faithful_fresh : fresh.Faithful := ⟨rfl, by simp [fresh], by simp [fresh]⟩

theorem tryDecode_stable : Stable tryDecode := lengthPrefixed_stable

theorem Faithful.push {s : Session} (h : s.Faithful) (bytes : List UInt8) :
    (s.step (.push bytes)).Faithful where
  taken := by
    change takeN tryDecode s.events.length (s.pushed ++ bytes) = some (s.events, (s.decoder.push bytes).live)
    rw [FrameDecoder.push_live]
    exact takeN_append tryDecode_stable h.taken bytes
  stuck e he := by
    change tryDecode (s.decoder.push bytes).live = .error e
    rw [FrameDecoder.push_live]
    exact tryDecode_stable.error (h.stuck e he) bytes
  repeated := h.repeated

theorem repeated_concat {answers : List (Except EnvelopeError (Option Event))}
    {a : Except EnvelopeError (Option Event)}
    (h : ∀ before e after, answers = before ++ .error e :: after → ∀ b ∈ after, b = .error e)
    (ha : ∀ e, .error e ∈ answers → a = .error e) (before : List (Except EnvelopeError (Option Event)))
    (e : EnvelopeError) (after : List (Except EnvelopeError (Option Event)))
    (heq : answers ++ [a] = before ++ .error e :: after) : ∀ b ∈ after, b = .error e := by
  intro b hb
  rcases eq_nil_or_concat after with rfl | ⟨after', last, rfl⟩
  · cases hb
  · have hsplit : answers ++ [a] = (before ++ .error e :: after') ++ [last] := by
      simpa using heq
    obtain ⟨hans, hlast⟩ := append_inj' hsplit rfl
    obtain rfl : a = last := by simpa using hlast
    have hb' : b ∈ after' ∨ b = a := by simpa using hb
    rcases hb' with hb' | rfl
    · exact h before e after' hans b hb'
    · exact ha e (by simp [hans])

theorem Faithful.nextEvent {s : Session} (h : s.Faithful) : (s.step .nextEvent).Faithful := by
  have hstuck : ∀ e, .error e ∈ s.answers → s.decoder.nextEvent = (.error e, s.decoder) :=
    fun e he => FrameDecoder.nextEvent_error (h.stuck e he)
  have hrepeated := repeated_concat h.repeated fun e he => congrArg Prod.fst (hstuck e he)
  obtain ⟨e, hd, hnext⟩ | ⟨hd, hnext⟩ | ⟨event, n, hd, hans, hlive⟩ := s.decoder.nextEvent_cases
  · have hevents : (s.step .nextEvent).events = s.events := by simp [step, events, hnext, eventOf]
    refine ⟨?_, fun e' he' => ?_, hrepeated⟩
    · rw [hevents]
      simpa only [step, hnext] using h.taken
    · simp only [step, hnext, mem_append, mem_singleton, Except.error.injEq] at he' ⊢
      rcases he' with he' | rfl
      · exact h.stuck e' he'
      · exact hd
  · have hevents : (s.step .nextEvent).events = s.events := by simp [step, events, hnext, eventOf]
    refine ⟨?_, fun e' he' => ?_, hrepeated⟩
    · rw [hevents]
      simpa only [step, hnext] using h.taken
    · simp only [step, hnext, mem_append, mem_singleton, reduceCtorEq, or_false] at he' ⊢
      exact h.stuck e' he'
  · have hevents : (s.step .nextEvent).events = s.events ++ [event] := by
      simp [step, events, hans, eventOf]
    refine ⟨?_, fun e' he' => ?_, hrepeated⟩
    · rw [hevents, length_append, length_singleton]
      change takeN tryDecode _ s.pushed = some (_, s.decoder.nextEvent.2.live)
      rw [hlive]
      exact takeN_concat h.taken hd
    · -- an event is answered only while there was no error
      simp only [step, hans, mem_append, mem_singleton, reduceCtorEq, or_false] at he'
      rw [h.stuck e' he'] at hd
      cases hd

theorem run_faithful (calls : List DecoderCall) : (run calls).Faithful := by
  rw [run]
  induction calls using List.reverseRecOn with
  | nil => exact faithful_fresh
  | append_singleton calls call ih =>
    rw [foldl_append]
    cases call with
    | push bytes => exact ih.push bytes
    | nextEvent => exact ih.nextEvent

end Session

theorem decoder_refines_batch (calls : List DecoderCall) :
    let s := Session.run calls
    decodeWhole tryDecode s.pushed =
      (s.events ++ (decodeWhole tryDecode s.decoder.live).1,
        (decodeWhole tryDecode s.decoder.live).2) ∧
    (∀ before e after, s.answers = before ++ .error e :: after →
      decodeWhole tryDecode s.pushed = (s.events, .error e) ∧ ∀ a ∈ after, a = .error e) ∧
    s.decoder.buffered + bytesTaken tryDecode s.events.length s.pushed = s.pushed.length ∧
    (s.decoder.nextEvent.1 = .ok none →
      s.decoder.nextEvent.2.buffered < 4 + maxFrameSize) := by
  intro s
  have h : s.Faithful := Session.run_faithful calls
  have hwhole := decodeWhole_of_takeN Session.tryDecode_stable h.taken
  refine ⟨hwhole, fun before e after hans => ⟨?_, h.repeated before e after hans⟩, ?_, fun hnone => ?_⟩
  · have hstuck := h.stuck e (by simp [hans])
    rw [hwhole, decodeWhole_error hstuck, append_nil]
  · rw [FrameDecoder.buffered_eq]
    exact (length_of_takeN Session.tryDecode_stable h.taken).2
  · obtain ⟨e, hd, hnext⟩ | ⟨hd, hnext⟩ | ⟨event, n, hd, hans, -⟩ := s.decoder.nextEvent_cases
    · rw [hnext] at hnone
      cases hnone
    · rw [hnext, FrameDecoder.buffered_eq]
      exact lengthPrefixed_none hd
    · rw [hans] at hnone
      cases hnone

end SerialNexus
